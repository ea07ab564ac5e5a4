import Kalisto.Adt.RbtreeInsert
import Kalisto.Lib.RedBlackDelete

/-!
# Deletion

`__rbtree_delete` first unlinks a node with at most one child (`unlink_spec`: the nodes then
represent the gap `gapOf` describes), and `__rbtree_rebalance_delete` closes the gap as `fixDelete`
does (`deleteLoop_spec`).  The red-black properties are what keeps the code from dereferencing
`NULL` and its two assertions from failing, so they are part of the loop's precondition.

* `rbtree_delete_correct` — `rbtree_delete` of any node of a red-black tree ends without a fault,
  and the nodes then represent a red-black tree with exactly that node removed, in which no link
  points to it.
-/

namespace Kalisto

namespace Rbtree

variable {α : Type} [DecidableEq α]

/-! ### One iteration -/

omit [DecidableEq α] in
theorem Repr.isBlack {t : Rbtree α} {k : Ctx α} {T : CTree α} (h : t.Repr (Ctx.plug k T)) :
    t.isBlack T.root = !T.isRed :=
  isBlack_root (repr_plug.mp h).2.2.1

omit [DecidableEq α] in
/-- Below a context the root of the subtree is not the root of the tree. -/
theorem Repr.root_ne {t : Rbtree α} {f : Frame α} {k : Ctx α} {T : CTree α}
    (h : t.Repr (Ctx.plug (f :: k) T)) : T.root ≠ t.root := by
  obtain ⟨hroot, -, -, hnd⟩ := repr_plug.mp h
  obtain ⟨r, hr, hmem⟩ := Ctx.topOf_mem f k T.root
  rw [hroot, hr]
  intro hT
  exact (List.nodup_append.mp hnd).2.2 r (CTree.root_mem hT) r hmem rfl

omit [DecidableEq α] in
/-- Children as the code names them: the one on the other side of the hole. -/
theorem mkSide_far (s : Side) (c : Color) (h h' p : Option α) :
    (if decide (s = .left) = true then (Rbnode.mkSide s c h h' p).right
      else (Rbnode.mkSide s c h h' p).left) = h' := by
  cases s <;> rfl

omit [DecidableEq α] in
/-- Children as the code names them: the one on the side of the hole. -/
theorem mkSide_near (s : Side) (c : Color) (h h' p : Option α) :
    (if decide (s = .left) = true then (Rbnode.mkSide s c h h' p).left
      else (Rbnode.mkSide s c h h' p).right) = h := by
  cases s <;> rfl

/-- A black sibling stays. -/
theorem deleteSibling_black {t : Rbtree α} {p : α} {nleft : Bool} {sibling : Option α}
    (h : t.isRed sibling = false) : t.deleteSibling p nleft sibling = .ok (t, sibling) := by
  simp [deleteSibling, h]

/-- **A red sibling is rotated away.** -/
theorem Repr.deleteSibling_red {t : Rbtree α} {k : Ctx α} {s : Side} {c : Color} {p y : α}
    {T b₁ b₂ : CTree α} (h : t.Repr (Ctx.plug k (CTree.join s c T p (CTree.join s .red b₁ y b₂)))) :
    ∃ t', t.deleteSibling p (decide (s = .left)) (some y) = .ok (t', b₁.root) ∧
      t'.Repr (Ctx.plug (⟨s, .black, y, b₂⟩ :: k) (CTree.join s .red T p b₁)) := by
  have hred : t.isRed (some y) = true := by
    have hy : t.Repr (Ctx.plug (⟨s.flip, c, p, T⟩ :: k) (CTree.join s .red b₁ y b₂)) := by
      rw [Ctx.plug, Frame.fill, CTree.join_flip]
      exact h
    simpa using hy.isRed
  obtain ⟨t₁, hrun, h1⟩ := h.rotateToward
  have h2 := Repr.setColor (k := ⟨s, .red, y, b₂⟩ :: k) (s := s) h1 .red
  have h3 := Repr.setColor (k := k) (s := s) h2 .black
  have hp := Repr.frame (f := ⟨s, .red, p, b₁⟩) (k := ⟨s, .black, y, b₂⟩ :: k) h3
  refine ⟨_, ?_, h3⟩
  simp only [deleteSibling, hred, if_true, rotate_eq, hrun, Outcome.ok_bind, deref, hp]
  rw [mkSide_far]
  rfl

/-- **The sibling has two black children**: it is painted red and the parent is next. -/
theorem Repr.deleteBlack_recolor {t : Rbtree α} {k : Ctx α} {s : Side} {c : Color} {p y : α}
    {T a b : CTree α} (h : t.Repr (Ctx.plug k (CTree.join s c T p (CTree.join s .black a y b))))
    (ha : a.isRed = false) (hb : b.isRed = false) :
    ∃ t', t.deleteBlack p (decide (s = .left)) (some y) =
        .ok (.inl (t', Ctx.above k, some p)) ∧
      t'.Repr (Ctx.plug k (CTree.join s c T p (CTree.join s .red a y b))) := by
  have hy : t.Repr (Ctx.plug (⟨s.flip, c, p, T⟩ :: k) (CTree.join s .black a y b)) := by
    rw [Ctx.plug, Frame.fill, CTree.join_flip]
    exact h
  obtain ⟨hrec, hra, hrb⟩ := rep_join.mp (repr_plug.mp hy).2.2.1
  have hblack : (t.isBlack (t.node y).left && t.isBlack (t.node y).right) = true := by
    have h1 : t.isBlack a.root = true := by rw [isBlack_root hra, ha]; rfl
    have h2 : t.isBlack b.root = true := by rw [isBlack_root hrb, hb]; rfl
    rw [hrec]
    cases s <;> simp [Rbnode.mkSide, h1, h2]
  have h1 := Repr.setColor (s := s) hy .red
  rw [Ctx.plug, Frame.fill, CTree.join_flip] at h1
  refine ⟨_, ?_, h1⟩
  simp only [deleteBlack, deref, Outcome.ok_bind, hblack, if_true,
    h1.parent (CTree.root_join ..)]
  rfl

/-- The last rotation: the sibling takes the place and the colour of the parent. -/
theorem Repr.deleteLast {t : Rbtree α} {k : Ctx α} {s : Side} {c c' : Color} {p y : α}
    {T a b : CTree α} (h : t.Repr (Ctx.plug k (CTree.join s c T p (CTree.join s c' a y b))))
    (hb : b.isRed = true) :
    (t.deleteLast p (decide (s = .left)) y b.root).Yields fun t' =>
      t'.Repr (Ctx.plug k (CTree.join s c (CTree.join s .black T p a) y b.blacken)) := by
  obtain ⟨z, hz⟩ := CTree.exists_root_of_isRed hb
  obtain ⟨-, -, hsib⟩ := rep_join.mp (repr_plug.mp h).2.2.1
  have hred : t.isRed (some z) = true := by rw [← hz, isRed_root (rep_join.mp hsib).2.2, hb]
  obtain ⟨t₁, hrun, h1⟩ := h.rotateToward
  have hp : (t₁.node p).color = c := by
    rw [Repr.frame (f := ⟨s, c, p, a⟩) (k := ⟨s, c', y, b⟩ :: k) (T := T) h1, Rbnode.mkSide_color]
  have h2 := Repr.setColor (k := k) (s := s) h1 c
  have h3 := Repr.setColor (k := ⟨s, c, y, b⟩ :: k) (s := s) h2 .black
  have h4 : ((t₁.setColor y c).setColor p .black).Repr
      (Ctx.plug (⟨s.flip, c, y, CTree.join s .black T p a⟩ :: k) b) := by
    rw [Ctx.plug, Frame.fill, CTree.join_flip]
    exact h3
  have h5 := h4.paint hz
  rw [Ctx.plug, Frame.fill, CTree.join_flip] at h5
  simp only [Rbtree.deleteLast, assert, hred, if_true, rotate_eq, hrun, Outcome.ok_bind, hp, hz,
    deref]
  exact Outcome.yields_ok h5

/-- **The sibling has a red child**: one or two rotations end the repair. -/
theorem Repr.deleteNephews {t : Rbtree α} {k : Ctx α} {s : Side} {c : Color} {p y : α}
    {T a b : CTree α} (h : t.Repr (Ctx.plug k (CTree.join s c T p (CTree.join s .black a y b))))
    (hab : ¬ (a.isRed = false ∧ b.isRed = false)) (up : CTree α → CTree α) :
    (t.deleteNephews p (decide (s = .left)) y).Yields fun t' =>
      ∃ U, t'.Repr U ∧ Ctx.fixSibling s c p a y b k T up = U.blacken := by
  have hy : t.Repr (Ctx.plug (⟨s.flip, c, p, T⟩ :: k) (CTree.join s .black a y b)) := by
    rw [Ctx.plug, Frame.fill, CTree.join_flip]
    exact h
  obtain ⟨hrec, hra, hrb⟩ := rep_join.mp (repr_plug.mp hy).2.2.1
  simp only [Rbtree.deleteNephews, hrec, mkSide_far, mkSide_near]
  cases hbr : b.isRed with
  | true =>
    have hblack : t.isBlack b.root = false := by rw [isBlack_root hrb, hbr]; rfl
    simp only [hblack, Bool.false_eq_true, if_false, Outcome.pure_eq, Outcome.ok_bind]
    have hlast := h.deleteLast hbr
    refine Outcome.Yields.mono hlast fun t' h' => ⟨_, h', ?_⟩
    simp [Ctx.fixSibling, hbr]
  | false =>
    have har : a.isRed = true := by
      by_contra ha
      exact hab ⟨by simpa using ha, hbr⟩
    obtain rfl | ⟨ca, a₁, z, a₂, rfl⟩ := CTree.eq_nil_or_join s a
    · simp at har
    · simp only [CTree.isRed_join, beq_iff_eq] at har
      subst har
      have hblack : t.isBlack b.root = true := by rw [isBlack_root hrb, hbr]; rfl
      have hred : t.isRed (some z) = true := by simpa using isRed_root hra
      -- the red child next to the hole comes up first
      have h0 : t.Repr (Ctx.plug (⟨s.flip, c, p, T⟩ :: k)
          (CTree.join s.flip .black b y (CTree.join s.flip .red a₂ z a₁))) := by
        rw [CTree.join_flip, CTree.join_flip]
        exact hy
      obtain ⟨t₁, hrun, h1⟩ := h0.rotateToward
      have h2 := Repr.setColor (k := ⟨s.flip, c, p, T⟩ :: k) (s := s.flip) h1 .black
      have h3 := Repr.setColor (k := ⟨s.flip, .black, z, a₁⟩ :: ⟨s.flip, c, p, T⟩ :: k)
        (s := s.flip) h2 .red
      have h4 : ((t₁.setColor z .black).setColor y .red).Repr (Ctx.plug k
          (CTree.join s c T p (CTree.join s .black a₁ z (CTree.join s .red a₂ y b)))) := by
        rw [← CTree.join_flip s .red, ← CTree.join_flip s .black, ← CTree.join_flip s c]
        exact h3
      rw [← rotate_not_eq] at hrun
      simp only [hblack, if_true, CTree.root_join, assert, hred, Outcome.ok_bind, hrun, deref,
        Outcome.pure_eq]
      have hlast := h4.deleteLast (by simp)
      rw [CTree.root_join] at hlast
      refine Outcome.Yields.mono hlast fun t' h' => ⟨_, h', ?_⟩
      simp [Ctx.fixSibling, hbr]

/-! ### The loop -/

/-- The last statement of `__rbtree_rebalance_delete`. -/
def paintNode (r : Rbtree α × Option α) : Rbtree α :=
  match r.2 with
  | some x => r.1.setColor x .black
  | none => r.1

theorem Repr.paintNode {t : Rbtree α} {k : Ctx α} {T : CTree α} (h : t.Repr (Ctx.plug k T)) :
    (paintNode (t, T.root)).Repr (Ctx.plug k T.blacken) := by
  cases hT : T.root with
  | none =>
    rw [CTree.root_eq_none] at hT
    subst hT
    exact h
  | some x => exact h.paint hT

/-- The branch with a red child leaves the loop with the root to paint. -/
theorem Repr.deleteBlack_end {t : Rbtree α} {k : Ctx α} {s : Side} {c : Color} {p y : α}
    {T a b : CTree α} (h : t.Repr (Ctx.plug k (CTree.join s c T p (CTree.join s .black a y b))))
    (hab : ¬ (a.isRed = false ∧ b.isRed = false)) (up : CTree α → CTree α) :
    ∃ r, t.deleteBlack p (decide (s = .left)) (some y) = .ok (.inr r) ∧
      (Rbtree.paintNode r).Repr (Ctx.fixSibling s c p a y b k T up) := by
  obtain ⟨t', hrun, U, hU, hfix⟩ := h.deleteNephews hab up
  have hblack : (t.isBlack (t.node y).left && t.isBlack (t.node y).right) = false := by
    have hsib := (rep_join.mp (repr_plug.mp h).2.2.1).2.2
    obtain ⟨hrec, hra, hrb⟩ := rep_join.mp hsib
    have h1 : t.isBlack a.root = !a.isRed := isBlack_root hra
    have h2 : t.isBlack b.root = !b.isRed := isBlack_root hrb
    rw [hrec]
    revert hab
    cases s <;> simp only [Rbnode.mkSide, h1, h2] <;> cases a.isRed <;> cases b.isRed <;> simp
  refine ⟨(t', t'.root), ?_, ?_⟩
  · simp only [deleteBlack, deref, Outcome.ok_bind, hblack, Bool.false_eq_true, if_false, hrun]
    rfl
  · rw [hfix, hU.root]
    exact Repr.paintNode (k := []) hU

/-- The loop leaves at a red node and at the root. -/
theorem deleteStep_exit {t : Rbtree α} {parent node : Option α}
    (h : t.isBlack node = false ∨ node = t.root) :
    deleteStep (t, parent, node) = .ok (.inr (t, node)) := by
  rcases h with h | h <;> simp [deleteStep, h]

/-- What an iteration reads at a black node below `p`. -/
theorem deleteStep_eq {t : Rbtree α} {k : Ctx α} {s : Side} {c : Color} {p y : α}
    {T b : CTree α} (h : t.Repr (Ctx.plug (⟨s, c, p, b⟩ :: k) T)) (hT : T.isRed = false)
    (hy : b.root = some y) :
    deleteStep (t, some p, T.root) = (do
      let (t, sibling) ← t.deleteSibling p (decide (s = .left)) (some y)
      t.deleteBlack p (decide (s = .left)) sibling) := by
  have hblack : t.isBlack T.root = true := by rw [h.isBlack, hT]; rfl
  have hne := h.root_ne
  have hp := h.frame
  have hnleft : decide (T.root = (t.node p).left) = decide (s = .left) := by
    rw [hp, decide_eq_decide]
    cases s with
    | left => simp [Rbnode.mkSide]
    | right =>
      simp only [Rbnode.mkSide, hy, reduceCtorEq, iff_false]
      intro hTy
      exact h.root_ne_sibling hTy hy
  simp only [deleteStep, hblack, hne, ne_eq, not_false_eq_true, decide_true, Bool.and_self, if_true,
    deref, Outcome.ok_bind, hnleft]
  rw [hp, mkSide_far, hy]

/-- **The loop of `__rbtree_rebalance_delete`** computes `fixDelete`, up to its last statement, with at
most three rotations: after an iteration that rotates there is at most the one that leaves the loop. -/
theorem deleteLoop_run (k : Ctx α) (T : CTree α) {t : Rbtree α} {fuel n : ℕ}
    (h : t.Repr (Ctx.plug k T)) (hTn : T.blacken.NoRedRed) (hTb : T.Balanced n) (hk : k.Colored)
    (hkb : k.Balanced (n + 1)) (hfuel : k.length < fuel) :
    (Outcome.loop deleteStep fuel (t, Ctx.above k, T.root)).Yields fun r =>
      (paintNode r).Repr (Ctx.fixDelete k T) ∧ Rotated 3 t r.1 := by
  induction k generalizing T t fuel n with
  | nil =>
    obtain ⟨fuel, rfl⟩ : ∃ n, fuel = n + 1 := ⟨fuel - 1, by omega⟩
    have hroot : T.root = t.root := h.root.symm
    rw [Outcome.loop_exit (deleteStep_exit (Or.inr hroot))]
    exact Outcome.yields_ok ⟨h.paintNode, .of_links rfl⟩
  | cons f k ih =>
    obtain ⟨s, c, p, b⟩ := f
    simp only [List.length_cons] at hfuel
    obtain ⟨fuel, rfl⟩ : ∃ n, fuel = n + 1 + 1 := ⟨fuel - 2, by omega⟩
    cases hT : T.isRed with
    | true =>
      rw [Outcome.loop_exit (deleteStep_exit (Or.inl (by rw [h.isBlack, hT]; rfl)))]
      simp only [Ctx.fixDelete, hT, if_true]
      exact Outcome.yields_ok ⟨h.paintNode, .of_links rfl⟩
    | false =>
      rw [CTree.blacken_of_not_isRed hT] at hTn
      simp only [Ctx.fixDelete, hT, Bool.false_eq_true, if_false]
      rcases Ctx.sibling_cases hk hkb with ⟨b₁, y, b₂, rfl, hb1, hb2⟩ |
        ⟨a₁, z, a₂, y, b₂, rfl, rfl, ha1, ha2, hb2n, hb2⟩
      · -- a black sibling
        have hstep := deleteStep_eq h hT (CTree.root_join ..)
        have hblack : t.isRed (some y) = false := by
          have := isRed_root h.sibling
          rwa [CTree.root_join, CTree.isRed_join] at this
        simp only [deleteSibling_black hblack, Outcome.ok_bind] at hstep
        simp only [CTree.split_join]
        by_cases hab : b₁.isRed = false ∧ b₂.isRed = false
        · obtain ⟨t', hrun, h'⟩ := Repr.deleteBlack_recolor (k := k) h hab.1 hab.2
          have hlinks := (deleteBlack_rotated hrun).1 _ rfl
          rw [hrun] at hstep
          obtain ⟨h1, h2⟩ := Ctx.recolored_ok (s := s) (c := c) (p := p) (y := y) ⟨hTn, hTb⟩ hb1 hb2
            hab.1 hab.2
          rw [Ctx.above, Outcome.loop_next hstep]
          rw [Ctx.fixSibling, if_pos hab]
          have hnext := ih _ h' h1 h2 hk.2.2 (by simpa [Nat.add_right_comm] using hkb.2)
            (show _ < fuel + 1 by omega)
          rw [CTree.root_join] at hnext
          exact hnext.mono fun r hr => ⟨hr.1, .repaint hlinks hr.2⟩
        · obtain ⟨r, hrun, hr⟩ := Repr.deleteBlack_end (k := k) h hab (Ctx.fixDelete k)
          have hrot := (deleteBlack_rotated hrun).2 _ rfl
          rw [hrun] at hstep
          rw [Ctx.above, Outcome.loop_exit hstep]
          exact Outcome.yields_ok ⟨hr, hrot.mono (by omega)⟩
      · -- a red sibling: after the rotation the parent is red, and the loop ends with it
        have hstep := deleteStep_eq h hT (CTree.root_join ..)
        obtain ⟨t₁, hrun₁, h₁⟩ := Repr.deleteSibling_red (k := k) h
        have hrot₁ := deleteSibling_rotated hrun₁
        simp only [hrun₁, Outcome.ok_bind, CTree.root_join] at hstep
        simp only [CTree.split_join]
        by_cases hab : a₁.isRed = false ∧ a₂.isRed = false
        · obtain ⟨t', hrun, h'⟩ := h₁.deleteBlack_recolor hab.1 hab.2
          have hlinks := (deleteBlack_rotated hrun).1 _ rfl
          rw [hrun] at hstep
          have hexit : t'.isBlack (some p) = false := by
            have := h'.isBlack
            rwa [CTree.root_join, CTree.isRed_join] at this
          rw [Ctx.above, Outcome.loop_next hstep, Outcome.loop_exit (deleteStep_exit (Or.inl hexit)),
            Ctx.fixSibling, if_pos hab]
          have hpaint := h'.paintNode
          rw [CTree.root_join] at hpaint
          exact Outcome.yields_ok ⟨hpaint, (hrot₁.paint hlinks).mono (by omega)⟩
        · obtain ⟨r, hrun, hr⟩ := h₁.deleteBlack_end hab
            fun u => Ctx.plug (⟨s, .black, y, b₂⟩ :: k) u.blacken
          have hrot := (deleteBlack_rotated hrun).2 _ rfl
          rw [hrun] at hstep
          rw [Ctx.above, Outcome.loop_exit hstep]
          exact Outcome.yields_ok ⟨hr, hrot₁.trans hrot⟩

/-- **The loop of `__rbtree_rebalance_delete` computes `fixDelete`**, up to its last statement. -/
theorem deleteLoop_spec (k : Ctx α) (T : CTree α) {t : Rbtree α} {fuel n : ℕ}
    (h : t.Repr (Ctx.plug k T)) (hTn : T.blacken.NoRedRed) (hTb : T.Balanced n) (hk : k.Colored)
    (hkb : k.Balanced (n + 1)) (hfuel : k.length < fuel) :
    (Outcome.loop deleteStep fuel (t, Ctx.above k, T.root)).Yields fun r =>
      (paintNode r).Repr (Ctx.fixDelete k T) :=
  (deleteLoop_run k T h hTn hTb hk hkb hfuel).mono fun _ hr => hr.1

/-- **`__rbtree_rebalance_delete` closes a gap.** -/
theorem Repr.rebalanceDelete {t : Rbtree α} {k : Ctx α} {T : CTree α} {fuel n : ℕ}
    (h : t.Repr (Ctx.plug k T)) (hTn : T.NoRedRed) (hTb : T.Balanced n) (hk : k.Colored)
    (hkb : k.Balanced (n + 1)) (hfuel : k.length < fuel) :
    (t.rebalanceDelete fuel (Ctx.above k) T.root).Yields fun t' =>
      t'.Repr (Ctx.fixDelete k T) := by
  refine Outcome.Yields.bind (deleteLoop_spec k T h hTn.blacken hTb hk hkb hfuel) ?_
  rintro ⟨t', node⟩ h'
  cases node with
  | none => exact Outcome.yields_ok h'
  | some x => exact Outcome.yields_ok h'

/-! ### Unlinking -/

omit [DecidableEq α] in
/-- **`__rbtree_first` finds the leftmost node.** -/
theorem first_spec {t : Rbtree α} {c : Color} {l r : CTree α} {x : α} {p : Option α} {fuel : ℕ}
    (h : Rep t.node p (.node c l x r)) (hfuel : (CTree.node c l x r).toList.length ≤ fuel) :
    t.first fuel x = .ok (Ctx.firstOf c l x r).2.2.1 := by
  induction l generalizing c x r p fuel with
  | nil =>
    obtain ⟨fuel, rfl⟩ : ∃ n, fuel = n + 1 :=
      ⟨fuel - 1, by simp [CTree.toList] at hfuel; omega⟩
    refine Outcome.loop_exit ?_ fuel
    rw [h.1]
    rfl
  | node c' l' x' r' ih _ =>
    obtain ⟨hx, hl, -⟩ := h
    simp only [CTree.toList, List.length_append, List.length_cons] at hfuel
    obtain ⟨fuel, rfl⟩ : ∃ n, fuel = n + 1 := ⟨fuel - 1, by omega⟩
    have hnext := ih hl (show _ ≤ fuel by
      simp only [CTree.toList, List.length_append, List.length_cons]
      omega)
    refine (Outcome.loop_next ?_ fuel).trans hnext
    rw [hx]
    rfl

/-- **A node with two children** `x`: the leftmost node `y` of its right subtree is taken out and put in
its place. -/
theorem Repr.takeFirst {t : Rbtree α} {k kr : Ctx α} {c cy : Color} {l ry : CTree α} {x y : α}
    (h : t.Repr (Ctx.plug k (.node c l x (Ctx.plug kr (.node cy .nil y ry))))) :
    (t.node y).right = ry.root ∧
      (t.moveParent y ry.root).2 = Ctx.above (kr ++ ⟨.right, c, x, l⟩ :: k) ∧
      ((t.moveParent y ry.root).1.node y).color = cy ∧
      ((t.moveParent y ry.root).1.replace x (some y)).Repr
        (Ctx.plug k (.node c l y (Ctx.plug kr ry))) := by
  have h1 : t.Repr (Ctx.plug (kr ++ ⟨.right, c, x, l⟩ :: k) (CTree.join .right cy ry y .nil)) := by
    rw [Ctx.plug_append]
    exact h
  obtain ⟨h2, h3, h4⟩ := h1.moveParent
  obtain ⟨-, -, hrep, hnd⟩ := repr_plug.mp h1
  obtain ⟨⟨hyry, -, hyk⟩, -⟩ := nodup_join_append.mp hnd
  have hynot : y ∉ (Ctx.plug (kr ++ ⟨.right, c, x, l⟩ :: k) ry).toList := by
    rw [Ctx.mem_plug]
    exact fun hmem => hmem.elim hyry hyk
  rw [Ctx.plug_append] at h2 hynot
  refine ⟨?_, h3, h4, Repr.replace h2 hynot⟩
  rw [(rep_join.mp hrep).1]
  rfl

/-- The parent of the gap is `y` when it was `x`. -/
theorem Repr.above_takeFirst {t : Rbtree α} {k kr : Ctx α} {c : Color} {l T : CTree α}
    {x y : α} (h : t.Repr (Ctx.plug (kr ++ ⟨.right, c, x, l⟩ :: k) T)) :
    (if Ctx.above (kr ++ ⟨.right, c, x, l⟩ :: k) = some x then some y
      else Ctx.above (kr ++ ⟨.right, c, x, l⟩ :: k)) = Ctx.above (kr ++ ⟨.right, c, y, l⟩ :: k) := by
  cases kr with
  | nil => simp [Ctx.above]
  | cons f kr =>
    have hfx : f.node ≠ x := by
      rintro rfl
      have hnd := (List.nodup_append.mp (repr_plug.mp h).2.2.2).2.1
      simp [Ctx.nodes, Ctx.nodes_append] at hnd
    simp [Ctx.above, hfx]

/-- **The first half of `__rbtree_delete`** leaves the gap of `gapOf` behind. -/
theorem unlink_spec {t : Rbtree α} {k : Ctx α} {c : Color} {l r : CTree α} {x : α} {fuel : ℕ}
    (h : t.Repr (Ctx.plug k (.node c l x r)))
    (hfuel : (Ctx.plug k (.node c l x r)).toList.length ≤ fuel) :
    ∃ t', t.unlink fuel x = .ok (t', Ctx.above (Ctx.gapOf k c l r).1,
        (Ctx.gapOf k c l r).2.2.root, (Ctx.gapOf k c l r).2.1) ∧
      t'.Repr (Ctx.plug (Ctx.gapOf k c l r).1 (Ctx.gapOf k c l r).2.2) := by
  have hx := (repr_plug.mp h).2.2.1.1
  cases l with
  | nil =>
    obtain ⟨h1, h2, h3⟩ := Repr.moveParent (s := .right) (a := r) h
    refine ⟨_, ?_, h1⟩
    simp only [unlink, hx, CTree.root_nil, Option.isSome_none, Bool.false_eq_true, false_and,
      not_false_eq_true, if_true, if_false, h2, h3]
    rfl
  | node cl ll xl rl =>
    cases r with
    | nil =>
      obtain ⟨h1, h2, h3⟩ := Repr.moveParent (s := .left) (a := .node cl ll xl rl) h
      refine ⟨_, ?_, h1⟩
      simp only [CTree.root] at h2 h3
      simp only [unlink, hx, CTree.root, Option.isSome_none, Option.isSome_some, Bool.false_eq_true,
        and_false, not_false_eq_true, if_true, h2, h3]
      rfl
    | node cr lr xr rr =>
      -- the leftmost node `y` of the right subtree is taken out and put in the place of `x`
      obtain ⟨kr, cy, y, ry, hf⟩ : ∃ kr cy y ry, Ctx.firstOf cr lr xr rr = (kr, cy, y, ry) :=
        ⟨_, _, _, _, rfl⟩
      have hplug := Ctx.plug_firstOf cr lr xr rr
      rw [hf] at hplug
      have hfirst := first_spec (repr_plug.mp h).2.2.1.2.2 (show _ ≤ fuel by
        rw [Ctx.toList_plug] at hfuel
        simp only [CTree.toList, List.length_append, List.length_cons] at hfuel ⊢
        omega)
      rw [hf] at hfirst
      rw [← hplug] at h
      obtain ⟨hyr, h2, h3, h4⟩ := h.takeFirst
      have hpar := Repr.above_takeFirst (k := k) (c := c) (l := .node cl ll xl rl) (x := x) (y := y)
        (T := .node cy .nil y ry) (t := t) (by rw [Ctx.plug_append]; exact h)
      refine ⟨(t.moveParent y ry.root).1.replace x (some y), ?_, ?_⟩
      · simp only [CTree.root] at hx
        simp only [unlink, hx, Option.isSome_some, and_self, not_true_eq_false, if_false,
          rbtreeFirst, assert, if_true, deref, Outcome.ok_bind, hfirst, hyr, h2, h3, Ctx.gapOf, hf,
          hpar]
        rfl
      · simp only [Ctx.gapOf, hf, Ctx.plug_append]
        exact h4

/-! ### `rbtree_delete` -/

omit [DecidableEq α] in
/-- The links of the nodes of a tree lead to nodes of the tree. -/
theorem Rep.links_mem {m : α → Rbnode α} {p : Option α} {T : CTree α} (h : Rep m p T) {y z : α}
    (hy : y ∈ T.toList) (hz : (m y).left = some z ∨ (m y).right = some z ∨ (m y).parent = some z) :
    z ∈ T.toList ∨ p = some z := by
  induction T generalizing p with
  | nil => simp [CTree.toList] at hy
  | node c l x r ihl ihr =>
    obtain ⟨hx, hl, hr⟩ := h
    simp only [CTree.toList, List.mem_append, List.mem_cons] at hy ⊢
    rcases hy with hy | rfl | hy
    · rcases ihl hl hy with hz' | hz'
      · tauto
      · simp only [Option.some.injEq] at hz'
        tauto
    · rw [hx] at hz
      rcases hz with hz | hz | hz
      · have := CTree.root_mem hz
        tauto
      · have := CTree.root_mem hz
        tauto
      · exact Or.inr hz
    · rcases ihr hr hy with hz' | hz'
      · tauto
      · simp only [Option.some.injEq] at hz'
        tauto

omit [DecidableEq α] in
/-- No link of a tree leads outside it. -/
theorem Repr.no_link {t : Rbtree α} {T : CTree α} (h : t.Repr T) {x : α} (hx : x ∉ T.toList) :
    t.root ≠ some x ∧ ∀ y ∈ T.toList, (t.node y).left ≠ some x ∧ (t.node y).right ≠ some x ∧
      (t.node y).parent ≠ some x := by
  have hlink : ∀ y ∈ T.toList, ¬ ((t.node y).left = some x ∨ (t.node y).right = some x ∨
      (t.node y).parent = some x) := by
    intro y hy hz
    rcases h.rep.links_mem hy hz with hmem | hnone
    · exact hx hmem
    · cases hnone
  refine ⟨fun hr => hx (CTree.root_mem (h.root.symm.trans hr)), fun y hy => ?_⟩
  have := hlink y hy
  tauto

theorem erase_middle {A B : List α} {x : α} (h : (A ++ x :: B).Nodup) :
    (A ++ x :: B).erase x = A ++ B := by
  have hnot : x ∉ A := fun hx => (List.nodup_append.mp h).2.2 x hx x List.mem_cons_self rfl
  rw [List.erase_append_right _ hnot, List.erase_cons_head]

/-- The node taken out of the tree is the one that is missing in the list. -/
theorem toList_removeAt_erase {k : Ctx α} {c : Color} {l r : CTree α} {x : α}
    (h : (Ctx.plug k (.node c l x r)).toList.Nodup) :
    (Ctx.removeAt k c l r).toList = (Ctx.plug k (.node c l x r)).toList.erase x := by
  have hsplit : (Ctx.plug k (.node c l x r)).toList =
      (Ctx.before k ++ l.toList) ++ x :: (r.toList ++ Ctx.after k) := by
    simp [Ctx.toList_plug, CTree.toList]
  rw [hsplit] at h ⊢
  rw [erase_middle h, Ctx.toList_removeAt]
  simp

/-- Nor does the gap hold it. -/
theorem toList_gapOf {k : Ctx α} {c : Color} {l r : CTree α} {x : α}
    (h : (Ctx.plug k (.node c l x r)).toList.Nodup) :
    (Ctx.plug (Ctx.gapOf k c l r).1 (Ctx.gapOf k c l r).2.2).toList =
      (Ctx.plug k (.node c l x r)).toList.erase x := by
  rw [← toList_removeAt_erase h, Ctx.removeAt, Ctx.toList_closeGap, Ctx.toList_plug]

/-- The gap is no deeper than the rest of the tree is large. -/
theorem gapOf_length_lt {k : Ctx α} {c : Color} {l r : CTree α} {x : α}
    (h : (Ctx.plug k (.node c l x r)).toList.Nodup) :
    (Ctx.gapOf k c l r).1.length < (Ctx.plug k (.node c l x r)).toList.length := by
  have hx : x ∈ (Ctx.plug k (.node c l x r)).toList := by
    rw [Ctx.mem_plug]
    exact Or.inl (CTree.root_mem rfl)
  have hpos := List.length_pos_of_mem hx
  have h1 := Ctx.length_le (Ctx.gapOf k c l r).1 (Ctx.gapOf k c l r).2.2
  have h2 := congrArg List.length (toList_gapOf h)
  rw [List.length_erase_of_mem hx] at h2
  omega

/-- Deletion of the node of a context. -/
theorem Repr.rbtreeDelete {t : Rbtree α} {k : Ctx α} {c : Color} {l r : CTree α} {x : α}
    (h : t.Repr (Ctx.plug k (.node c l x r))) (hrb : (Ctx.plug k (.node c l x r)).RedBlack) {fuel : ℕ}
    (hfuel : (Ctx.plug k (.node c l x r)).toList.length < fuel) :
    (t.rbtreeDelete fuel (some x)).Yields fun t' => t'.Repr (Ctx.removeAt k c l r) := by
  obtain ⟨t₁, hrun, h₁⟩ := unlink_spec h hfuel.le
  obtain ⟨n, hk, hkb, hTn, hTb, -⟩ := Ctx.gapOf_ok hrb
  have hlen := (gapOf_length_lt h.nodup).trans hfuel
  simp only [Rbtree.rbtreeDelete, assert, Option.isSome_some, if_true, deref, Outcome.ok_bind, delete,
    hrun]
  rw [Ctx.removeAt]
  cases hc : (Ctx.gapOf k c l r).2.1 with
  | black =>
    rw [hc] at hkb
    exact h₁.rebalanceDelete hTn hTb hk hkb hlen
  | red => exact Outcome.yields_ok h₁

/-- **Deletion.**  On every red-black tree and for every node of it, `rbtree_delete` ends without a
fault, and the nodes represent a red-black tree whose in-order sequence is the old one with exactly
that node removed; no link of it points to the removed node. -/
theorem rbtree_delete_correct {t : Rbtree α} {T : CTree α} (h : t.Repr T) (hrb : T.RedBlack)
    {x : α} (hx : x ∈ T.toList) {fuel : ℕ} (hfuel : T.toList.length < fuel) :
    (t.rbtreeDelete fuel (some x)).Yields fun t' =>
      ∃ T', t'.Repr T' ∧ T'.RedBlack ∧ T'.toList = T.toList.erase x ∧
        t'.root ≠ some x ∧ ∀ y ∈ T'.toList, (t'.node y).left ≠ some x ∧
          (t'.node y).right ≠ some x ∧ (t'.node y).parent ≠ some x := by
  obtain ⟨k, c, l, r, rfl⟩ := Ctx.exists_plug hx
  have hlist := toList_removeAt_erase h.nodup
  refine Outcome.Yields.mono (h.rbtreeDelete hrb hfuel) fun t' h' => ?_
  have hgone : x ∉ (Ctx.removeAt k c l r).toList := by
    rw [hlist]
    exact List.Nodup.not_mem_erase h.nodup
  exact ⟨_, h', Ctx.redBlack_removeAt hrb, hlist, h'.no_link hgone⟩

/-- Deleting the root of a tree of two nodes. -/
theorem rbtree_delete_twoNodes :
    (twoNodes.rbtreeDelete 10 (some 5)).Yields fun t' =>
      ∃ T', t'.Repr T' ∧ T'.RedBlack ∧ T'.toList = [3] ∧
        t'.root ≠ some 5 ∧ ∀ y ∈ T'.toList, (t'.node y).left ≠ some 5 ∧
          (t'.node y).right ≠ some 5 ∧ (t'.node y).parent ≠ some 5 :=
  rbtree_delete_correct twoNodes_repr twoNodes_redBlack (by decide) (by decide)

end Rbtree

end Kalisto
