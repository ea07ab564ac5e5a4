import Kalisto.Adt.RbtreeRepr
import Kalisto.Adt.RbtreeLinks
import Kalisto.Lib.RedBlack

/-!
# Insertion

`__rbtree_rebalance_insert` on the nodes does what `fixInsert` does on the tree: each iteration is
one step of it (`insertLoop_spec`), and a rotation leaves the loop through its condition.  With the
facts about `fixInsert` this gives

* `rbtree_insert_correct` — `rbtree_insert` at a `NULL` link of a red-black tree ends without a
  fault, and the nodes then represent a red-black tree with the new node exactly at the position of
  the link.
-/

namespace Kalisto

namespace Rbtree

variable {α : Type}

/-! ### What the nodes around a hole hold -/

theorem Repr.parent {t : Rbtree α} {k : Ctx α} {T : CTree α} (h : t.Repr (Ctx.plug k T)) {x : α}
    (hx : T.root = some x) : (t.node x).parent = Ctx.above k :=
  (repr_plug.mp h).2.2.1.parent hx

/-- The record of the node above the hole. -/
theorem Repr.frame {t : Rbtree α} {f : Frame α} {k : Ctx α} {T : CTree α}
    (h : t.Repr (Ctx.plug (f :: k) T)) :
    t.node f.node = Rbnode.mkSide f.side f.color T.root f.sibling.root (Ctx.above k) :=
  (repr_plug.mp h).2.1.1

/-- The sibling of the hole is represented too. -/
theorem Repr.sibling {t : Rbtree α} {f : Frame α} {k : Ctx α} {T : CTree α}
    (h : t.Repr (Ctx.plug (f :: k) T)) : Rep t.node (some f.node) f.sibling :=
  (repr_plug.mp h).2.1.2.1

theorem Repr.isRed {t : Rbtree α} {k : Ctx α} {T : CTree α} (h : t.Repr (Ctx.plug k T)) :
    t.isRed T.root = T.isRed :=
  isRed_root (repr_plug.mp h).2.2.1

theorem Repr.isRed_above {t : Rbtree α} {k : Ctx α} {T : CTree α} (h : t.Repr (Ctx.plug k T)) :
    t.isRed (Ctx.above k) = true ↔ Ctx.topColor k = some .red := by
  cases k with
  | nil => simp [Ctx.above, Rbtree.isRed, Ctx.topColor]
  | cons f k => simp [Ctx.above, Rbtree.isRed, Ctx.topColor, h.frame]

/-- The two subtrees below a node have different roots. -/
theorem Repr.root_ne_sibling {t : Rbtree α} {f : Frame α} {k : Ctx α} {T : CTree α}
    (h : t.Repr (Ctx.plug (f :: k) T)) {x : α} (hx : T.root = some x) :
    f.sibling.root ≠ some x := by
  intro hs
  obtain ⟨-, -, hnd⟩ := List.nodup_append.mp (repr_plug.mp h).2.2.2
  exact hnd x (CTree.root_mem hx) x (by simp [Ctx.nodes, CTree.root_mem hs]) rfl

/-- The test by which the code finds out on which side a child is. -/
theorem mkSide_left_eq {s : Side} {c : Color} {x : α} {h' p : Option α} (hne : h' ≠ some x) :
    (Rbnode.mkSide s c (some x) h' p).left = some x ↔ s = .left := by
  cases s with
  | left => simp [Rbnode.mkSide]
  | right => simpa [Rbnode.mkSide] using hne

variable [DecidableEq α]

/-- Painting the root of a subtree black. -/
theorem Repr.paint {t : Rbtree α} {k : Ctx α} {T : CTree α} (h : t.Repr (Ctx.plug k T)) {x : α}
    (hx : T.root = some x) : (t.setColor x .black).Repr (Ctx.plug k T.blacken) := by
  cases T with
  | nil => cases hx
  | node c l y r =>
    cases hx
    exact Repr.setColor (s := .left) h .black

theorem rotate_eq (t : Rbtree α) (pivot : α) (s : Side) :
    t.rotate pivot (decide (s = .left)) = t.rotateToward s pivot := by
  cases s <;> rfl

theorem rotate_not_eq (t : Rbtree α) (pivot : α) (s : Side) :
    t.rotate pivot (!decide (s = .left)) = t.rotateToward s.flip pivot := by
  cases s <;> rfl

/-! ### The two kinds of iteration -/

/-- The condition of the loop is false below a node that is not red. -/
theorem insertStep_exit {t : Rbtree α} {k : Ctx α} {T : CTree α} {x : α}
    (h : t.Repr (Ctx.plug k T)) (hx : T.root = some x) (hk : Ctx.topColor k ≠ some .red) :
    insertStep (t, x) = .ok (.inr t) := by
  have hred : ¬ t.isRed (Ctx.above k) = true := fun hr => hk (h.isRed_above.mp hr)
  simp [insertStep, h.parent hx, hred]

/-- What an iteration reads when the parent is red. -/
theorem insertStep_eq {t : Rbtree α} {d s : Side} {c : Color} {p g x : α} {a b T : CTree α}
    {k : Ctx α} (h : t.Repr (Ctx.plug (⟨d, .red, p, a⟩ :: ⟨s, c, g, b⟩ :: k) T))
    (hx : T.root = some x) :
    insertStep (t, x) =
      if b.isRed then do
        let u ← deref b.root
        return .inl (((t.setColor u .black).setColor p .black).setColor g .red, g)
      else do
        let r ← t.insertRotate x p g
        return .inl r := by
  have hp := h.frame
  have hg := Repr.frame (T := Frame.fill ⟨d, .red, p, a⟩ T) (f := ⟨s, c, g, b⟩) (k := k) h
  have hred : t.isRed (some p) = true := h.isRed_above.mpr rfl
  have hne : b.root ≠ some p := Repr.root_ne_sibling (T := Frame.fill ⟨d, .red, p, a⟩ T)
    (f := ⟨s, c, g, b⟩) (k := k) h (CTree.root_join ..)
  have hb : t.isRed b.root = b.isRed := isRed_root (Repr.sibling
    (T := Frame.fill ⟨d, .red, p, a⟩ T) (f := ⟨s, c, g, b⟩) (k := k) h)
  have huncle : (if (t.node g).left = some p then (t.node g).right else (t.node g).left) =
      b.root := by
    simp only [Frame.fill, CTree.root_join] at hg
    rw [hg]
    cases s <;> simp [Rbnode.mkSide, hne]
  have hpg : (t.node p).parent = some g := by rw [hp, Rbnode.mkSide_parent]; rfl
  simp only [insertStep, h.parent hx, Ctx.above, hred, if_true, deref, Outcome.ok_bind, hpg, huncle,
    hb]

/-- **The recolouring iteration.**  A red uncle: two levels up. -/
theorem Repr.insertStep_uncle {t : Rbtree α} {d s : Side} {c : Color} {p g x : α}
    {a b T : CTree α} {k : Ctx α} (h : t.Repr (Ctx.plug (⟨d, .red, p, a⟩ :: ⟨s, c, g, b⟩ :: k) T))
    (hx : T.root = some x) (hb : b.isRed = true) :
    ∃ t', insertStep (t, x) = .ok (.inl (t', g)) ∧
      t'.Repr (Ctx.plug k (CTree.join s .red (CTree.join d .black T p a) g b.blacken)) := by
  obtain ⟨u, hu⟩ : ∃ u, b.root = some u := by
    cases b with
    | nil => simp at hb
    | node cb l u r => exact ⟨u, rfl⟩
  rw [insertStep_eq h hx, if_pos hb, hu]
  refine ⟨_, rfl, ?_⟩
  -- the uncle, then the parent, then the grandparent
  have h1 : t.Repr (Ctx.plug (⟨s.flip, c, g, CTree.join d .red T p a⟩ :: k) b) := by
    rw [Ctx.plug, Frame.fill, CTree.join_flip]
    exact h
  have h2 := h1.paint hu
  rw [Ctx.plug, Frame.fill, CTree.join_flip] at h2
  have h3 := Repr.setColor (k := ⟨s, c, g, b.blacken⟩ :: k) (s := d) h2 .black
  exact Repr.setColor (s := s) h3 .red

/-- **The last rotation** of an iteration, with the colours that follow it: the red `p` takes the place of
its parent `g`, which goes down away from it. -/
theorem Repr.rotateOut {t : Rbtree α} {s : Side} {c : Color} {p g : α} {a b T : CTree α} {k : Ctx α}
    (h : t.Repr (Ctx.plug k (CTree.join s c (CTree.join s .red T p a) g b))) :
    ∃ t', t.rotate g (!decide (s = .left)) = .ok t' ∧
      ((t'.setColor g .red).setColor p .black).Repr
        (Ctx.plug k (CTree.join s .black T p (CTree.join s .red a g b))) := by
  have h1 : t.Repr (Ctx.plug k (CTree.join s.flip c b g (CTree.join s.flip .red a p T))) := by
    rw [CTree.join_flip, CTree.join_flip]
    exact h
  obtain ⟨t', hrun, h2⟩ := h1.rotateToward
  have h3 := Repr.setColor (k := ⟨s.flip, .red, p, T⟩ :: k) (s := s.flip) h2 .red
  have h4 := Repr.setColor (k := k) (s := s.flip) h3 .black
  rw [CTree.join_flip, CTree.join_flip] at h4
  exact ⟨t', (rotate_not_eq t g s).trans hrun, h4⟩

/-- **The rotating iteration.**  A black uncle: one or two rotations, and the node the loop goes on
with has a black parent. -/
theorem Repr.insertStep_rotate {t : Rbtree α} {d s : Side} {c : Color} {p g x : α}
    {a b T : CTree α} {k : Ctx α} (h : t.Repr (Ctx.plug (⟨d, .red, p, a⟩ :: ⟨s, c, g, b⟩ :: k) T))
    (hx : T.root = some x) (hT : T.isRed = true) (hb : b.isRed = false) :
    ∃ t' x', insertStep (t, x) = .ok (.inl (t', x')) ∧
      t'.Repr (Ctx.plug k (Ctx.insertRotated d s T p a g b)) ∧
      insertStep (t', x') = .ok (.inr t') := by
  have hp := h.frame
  have hg := Repr.frame (T := Frame.fill ⟨d, .red, p, a⟩ T) (f := ⟨s, c, g, b⟩) (k := k) h
  have hbp : b.root ≠ some p := Repr.root_ne_sibling (T := Frame.fill ⟨d, .red, p, a⟩ T)
    (f := ⟨s, c, g, b⟩) (k := k) h (CTree.root_join ..)
  have hax : a.root ≠ some x := h.root_ne_sibling hx
  have hnleft : decide ((t.node p).left = some x) = decide (d = .left) := by
    rw [hp, hx]
    exact decide_eq_decide.mpr (mkSide_left_eq hax)
  have hpleft : decide ((t.node g).left = some p) = decide (s = .left) := by
    simp only [Frame.fill, CTree.root_join] at hg
    rw [hg]
    exact decide_eq_decide.mpr (mkSide_left_eq hbp)
  rw [insertStep_eq h hx, hb]
  simp only [Bool.false_eq_true, if_false, insertRotate, hnleft, hpleft]
  by_cases hds : d = s
  · subst hds
    -- the new node is at the boundary: one rotation
    obtain ⟨t₁, hrun, h1⟩ := Repr.rotateOut h
    simp only [bne_self_eq_false, Bool.false_eq_true, if_false, Outcome.pure_eq, Outcome.ok_bind,
      hrun]
    refine ⟨_, _, rfl, ?_, ?_⟩
    · rw [Ctx.insertRotated, if_pos rfl]
      exact h1
    · exact insertStep_exit (k := ⟨d, .black, p, CTree.join d .red a g b⟩ :: k) h1 hx
        (by simp [Ctx.topColor])
  · -- the new node is an inner node: rotate it to the boundary first
    have hdf : d = s.flip := (Side.eq_or_eq_flip s d).resolve_left hds
    have hbne : (decide (d = .left) != decide (s = .left)) = true := by
      subst hdf
      cases s <;> rfl
    obtain rfl | ⟨cx, T₁, y, T₂, rfl⟩ := CTree.eq_nil_or_join s T
    · simp at hT
    · simp only [CTree.root_join, Option.some.injEq] at hx
      subst hx
      simp only [CTree.isRed_join, beq_iff_eq] at hT
      subst hT
      have h1 : t.Repr (Ctx.plug (⟨s, c, g, b⟩ :: k)
          (CTree.join s .red a p (CTree.join s .red T₁ y T₂))) := by
        subst hdf
        rw [← CTree.join_flip]
        exact h
      obtain ⟨t₁, hrun₁, h2⟩ := h1.rotateToward
      rw [← rotate_eq] at hrun₁
      have hpar : (t₁.node p).parent = some y :=
        Repr.parent (k := ⟨s, .red, y, T₂⟩ :: ⟨s, c, g, b⟩ :: k) h2 (CTree.root_join ..)
      obtain ⟨t₂, hrun₂, h3⟩ := Repr.rotateOut (s := s) (T := CTree.join s .red a p T₁) (a := T₂) h2
      simp only [hbne, if_true, hrun₁, Outcome.ok_bind, hpar, deref, Outcome.pure_eq, hrun₂]
      refine ⟨_, _, rfl, ?_, ?_⟩
      · rw [Ctx.insertRotated, if_neg hds, CTree.split_join]
        exact h3
      · exact insertStep_exit (k := ⟨s, .black, y, CTree.join s .red T₂ g b⟩ :: k) h3
          (CTree.root_join ..) (by simp [Ctx.topColor])

/-! ### The loop -/

/-- What an iteration does to the links. -/
theorem Repr.insertStep_links {t : Rbtree α} {d s : Side} {c : Color} {p g x : α} {a b T : CTree α}
    {k : Ctx α} (h : t.Repr (Ctx.plug (⟨d, .red, p, a⟩ :: ⟨s, c, g, b⟩ :: k) T)) (hx : T.root = some x)
    {r : Rbtree α × α} (hstep : insertStep (t, x) = .ok (.inl r)) :
    (b.isRed = true → r.1.links = t.links) ∧ (b.isRed = false → Rotated 2 t r.1) := by
  rw [insertStep_eq h hx] at hstep
  refine ⟨fun hb => ?_, fun hb => ?_⟩
  · rw [if_pos hb] at hstep
    obtain ⟨u, -, hstep⟩ := Outcome.bind_eq_ok.mp hstep
    cases hstep
    simp
  · rw [if_neg (by simp [hb])] at hstep
    obtain ⟨r', hrun, hstep⟩ := Outcome.bind_eq_ok.mp hstep
    cases hstep
    exact insertRotate_rotated hrun

/-- **The loop of `__rbtree_rebalance_insert`** computes `fixInsert`, with at most two rotations: the
iteration that rotates is the last one. -/
theorem insertLoop_run (k : Ctx α) (T : CTree α) {t : Rbtree α} {x : α} {fuel : ℕ}
    (h : t.Repr (Ctx.plug k T)) (hx : T.root = some x) (hT : T.isRed = true) (hk : k.Colored)
    (hfuel : k.length < fuel) :
    (Outcome.loop insertStep fuel (t, x)).Yields fun t' =>
      t'.Repr (Ctx.fixInsert k T) ∧ Rotated 2 t t' := by
  fun_induction Ctx.fixInsert k T generalizing t x fuel with
  | case1 d p a s c g b k T hb ih =>
    obtain ⟨t', hstep, h'⟩ := h.insertStep_uncle hx hb
    obtain ⟨fuel, rfl⟩ : ∃ n, fuel = n + 1 := ⟨fuel - 1, by omega⟩
    rw [Outcome.loop_next hstep]
    simp only [List.length_cons] at hfuel
    have hrest := ih h' (CTree.root_join ..) (by simp) hk.2.2.2.2 (show _ < fuel by omega)
    have hlinks := (h.insertStep_links hx hstep).1 hb
    exact hrest.mono fun t'' ht'' => ⟨ht''.1, .repaint hlinks ht''.2⟩
  | case2 d p a s c g b k T hb =>
    obtain ⟨t', x', hstep, h', hexit⟩ := h.insertStep_rotate hx hT (by simpa using hb)
    simp only [List.length_cons] at hfuel
    obtain ⟨fuel, rfl⟩ : ∃ n, fuel = n + 1 + 1 := ⟨fuel - 2, by omega⟩
    rw [Outcome.loop_next hstep, Outcome.loop_exit hexit]
    exact Outcome.yields_ok ⟨h', (h.insertStep_links hx hstep).2 (by simpa using hb)⟩
  | case3 k T hshape =>
    have hblack : Ctx.topColor k ≠ some .red := by
      intro htop
      cases k with
      | nil => simp [Ctx.topColor] at htop
      | cons f k =>
        obtain ⟨d, c, p, a⟩ := f
        simp only [Ctx.topColor, Option.some.injEq] at htop
        subst htop
        obtain ⟨-, hnext⟩ := hk.2.1 rfl
        cases k with
        | nil => simp [Ctx.topColor] at hnext
        | cons f' k =>
          obtain ⟨s, c', g, b⟩ := f'
          exact hshape d p a s c' g b k rfl
    obtain ⟨fuel, rfl⟩ : ∃ n, fuel = n + 1 := ⟨fuel - 1, by omega⟩
    rw [Outcome.loop_exit (insertStep_exit h hx hblack)]
    exact Outcome.yields_ok ⟨h, .of_links rfl⟩

/-- **The loop of `__rbtree_rebalance_insert` computes `fixInsert`.** -/
theorem insertLoop_spec (k : Ctx α) (T : CTree α) {t : Rbtree α} {x : α} {fuel : ℕ}
    (h : t.Repr (Ctx.plug k T)) (hx : T.root = some x) (hT : T.isRed = true) (hk : k.Colored)
    (hfuel : k.length < fuel) :
    (Outcome.loop insertStep fuel (t, x)).Yields fun t' => t'.Repr (Ctx.fixInsert k T) :=
  (insertLoop_run k T h hx hT hk hfuel).mono fun _ h' => h'.1

omit [DecidableEq α] in
/-- The tree is not empty. -/
theorem exists_root_fixInsert (k : Ctx α) {T : CTree α} {x : α} (hx : T.root = some x) :
    ∃ r, (Ctx.fixInsert k T).root = some r := by
  have hne : x ∈ (Ctx.fixInsert k T).toList := by
    rw [Ctx.toList_fixInsert]
    exact Ctx.mem_plug.mpr (Or.inl (CTree.root_mem hx))
  cases hT : Ctx.fixInsert k T with
  | nil => simp [hT, CTree.toList] at hne
  | node c l r _ => exact ⟨r, rfl⟩

/-- `__rbtree_rebalance_insert` on a freshly linked node. -/
theorem Repr.rebalanceInsert {t : Rbtree α} {k : Ctx α} {T : CTree α} {x : α} {fuel : ℕ}
    (h : t.Repr (Ctx.plug k T)) (hx : T.root = some x) (hT : T.isRed = true) (hk : k.Colored)
    (hfuel : k.length < fuel) :
    (t.rebalanceInsert fuel x).Yields fun t' => t'.Repr (Ctx.fixInsert k T).blacken := by
  refine Outcome.Yields.bind (insertLoop_spec k T h hx hT hk hfuel) fun t₁ h₁ => ?_
  obtain ⟨r, hr⟩ := exists_root_fixInsert k hx
  rw [h₁.root, hr]
  exact Outcome.yields_ok (Repr.paint (k := []) h₁ hr)

/-! ### `rbtree_insert` -/

/-- `clinkp` is a `NULL` link of the tree and `parent` the node it belongs to. -/
def OpenLink (t : Rbtree α) (T : CTree α) (parent : Option α) : ChildLink α → Prop
  | .root => parent = none ∧ t.root = none
  | .left p => parent = some p ∧ p ∈ T.toList ∧ (t.node p).left = none
  | .right p => parent = some p ∧ p ∈ T.toList ∧ (t.node p).right = none

/-- The sequence `L'` is `L` with `x` inserted at the position of a link. -/
def InsertedAt (x : α) (L L' : List α) : ChildLink α → Prop
  | .root => L = [] ∧ L' = [x]
  | .left p => ∃ A B, L = A ++ p :: B ∧ L' = A ++ x :: p :: B
  | .right p => ∃ A B, L = A ++ p :: B ∧ L' = A ++ p :: x :: B

omit [DecidableEq α] in
/-- An open link is the hole of a context. -/
theorem OpenLink.exists_ctx {t : Rbtree α} {T : CTree α} (h : t.Repr T) {parent : Option α}
    {link : ChildLink α} (hl : OpenLink t T parent link) :
    ∃ k, T = Ctx.plug k .nil ∧ parent = Ctx.above k ∧ link = linkOf k := by
  cases link with
  | root =>
    obtain ⟨rfl, hroot⟩ := hl
    rw [h.root] at hroot
    exact ⟨[], CTree.root_eq_none.mp hroot, rfl, rfl⟩
  | left p =>
    obtain ⟨rfl, hp, hnone⟩ := hl
    obtain ⟨k, c, l, r, rfl⟩ := Ctx.exists_plug hp
    have hrec := (repr_plug.mp h).2.2.1.1
    rw [hrec] at hnone
    obtain rfl := CTree.root_eq_none.mp hnone
    exact ⟨⟨.left, c, p, r⟩ :: k, rfl, rfl, rfl⟩
  | right p =>
    obtain ⟨rfl, hp, hnone⟩ := hl
    obtain ⟨k, c, l, r, rfl⟩ := Ctx.exists_plug hp
    have hrec := (repr_plug.mp h).2.2.1.1
    rw [hrec] at hnone
    obtain rfl := CTree.root_eq_none.mp hnone
    exact ⟨⟨.right, c, p, l⟩ :: k, rfl, rfl, rfl⟩

omit [DecidableEq α] in
/-- Filling the hole inserts at the position of its link. -/
theorem insertedAt_linkOf (k : Ctx α) (x : α) :
    InsertedAt x (Ctx.before k ++ Ctx.after k) (Ctx.before k ++ x :: Ctx.after k) (linkOf k) := by
  cases k with
  | nil => exact ⟨rfl, rfl⟩
  | cons f k =>
    obtain ⟨s, c, p, b⟩ := f
    cases s with
    | left =>
      refine ⟨Ctx.before k, b.toList ++ Ctx.after k, ?_, ?_⟩ <;>
        simp [Ctx.before, Ctx.after, Frame.before, Frame.after]
    | right =>
      refine ⟨Ctx.before k ++ b.toList, Ctx.after k, ?_, ?_⟩ <;>
        simp [Ctx.before, Ctx.after, Frame.before, Frame.after]

/-- Insertion at the open link of a context. -/
theorem Repr.rbtreeInsert {t : Rbtree α} {k : Ctx α} (h : t.Repr (Ctx.plug k .nil))
    (hrb : (Ctx.plug k .nil).RedBlack) {x : α} (hx : x ∉ (Ctx.plug k .nil).toList) {fuel : ℕ}
    (hfuel : (Ctx.plug k .nil).toList.length < fuel) :
    (t.rbtreeInsert fuel (some x) (Ctx.above k) (some (linkOf k))).Yields fun t' =>
      ∃ T', t'.Repr T' ∧ T'.RedBlack ∧ T'.toList = Ctx.before k ++ x :: Ctx.after k := by
  obtain ⟨hk, -, -, n, hn, hkb⟩ := (Ctx.redBlack_plug k _).mp hrb
  obtain rfl := CTree.balanced_nil.mp hn
  have hlen : k.length < fuel := lt_of_le_of_lt (Ctx.length_le k _) hfuel
  have hlinked := h.setLink hx
  have hrun := hlinked.rebalanceInsert rfl rfl hk hlen
  refine Outcome.Yields.mono hrun fun t' h' => ⟨_, h', ?_, ?_⟩
  · refine Ctx.redBlack_fixInsert k _ (n := 0) rfl ?_ ?_ hk hkb
    · exact ⟨fun _ => ⟨rfl, rfl⟩, trivial, trivial⟩
    · exact CTree.balanced_node.mpr ⟨0, rfl, by simp, by simp⟩
  · rw [CTree.toList_blacken, Ctx.toList_fixInsert, Ctx.toList_plug]
    simp [CTree.toList]

/-- **Insertion.**  On every red-black tree, for every node outside it and every `NULL` link of it,
`rbtree_insert` ends without a fault, and the nodes represent a red-black tree whose in-order
sequence has the new node at the position of that link and is the old one otherwise. -/
theorem rbtree_insert_correct {t : Rbtree α} {T : CTree α} (h : t.Repr T) (hrb : T.RedBlack)
    {x : α} (hx : x ∉ T.toList) {parent : Option α} {clinkp : ChildLink α}
    (hlink : OpenLink t T parent clinkp) {fuel : ℕ} (hfuel : T.toList.length < fuel) :
    (t.rbtreeInsert fuel (some x) parent (some clinkp)).Yields fun t' =>
      ∃ T', t'.Repr T' ∧ T'.RedBlack ∧ InsertedAt x T.toList T'.toList clinkp := by
  obtain ⟨k, rfl, rfl, rfl⟩ := hlink.exists_ctx h
  refine Outcome.Yields.mono (h.rbtreeInsert hrb hx hfuel) fun t' h' => ?_
  obtain ⟨T', hrepr, hrb', hlist⟩ := h'
  refine ⟨T', hrepr, hrb', ?_⟩
  rw [hlist, Ctx.toList_plug]
  simpa [CTree.toList] using insertedAt_linkOf k x

/-- The nodes `5`, black and root, and `3`, red and its left child. -/
def twoNodes : Rbtree ℕ where
  root := some 5
  node := fun x => if x = 5 then ⟨.black, some 3, none, none⟩ else ⟨.red, none, none, some 5⟩

/-- The tree they represent. -/
def twoNodesTree : CTree ℕ := .node .black (.node .red .nil 3 .nil) 5 .nil

theorem twoNodes_repr : twoNodes.Repr twoNodesTree :=
  ⟨rfl, ⟨rfl, ⟨rfl, trivial, trivial⟩, trivial⟩, by decide⟩

theorem twoNodes_redBlack : twoNodesTree.RedBlack :=
  ⟨rfl, by simp [twoNodesTree, CTree.NoRedRed], 1,
    by simp [twoNodesTree, CTree.Balanced, CTree.blackCounts, CTree.weight]⟩

/-- Inserting `2` below `3`, which takes a rotation. -/
theorem rbtree_insert_twoNodes :
    (twoNodes.rbtreeInsert 10 (some 2) (some 3) (some (.left 3))).Yields fun t' =>
      ∃ T', t'.Repr T' ∧ T'.RedBlack ∧ InsertedAt 2 [3, 5] T'.toList (.left 3) := by
  have hlink : OpenLink twoNodes twoNodesTree (some 3) (.left 3) := ⟨rfl, by decide, rfl⟩
  exact rbtree_insert_correct twoNodes_repr twoNodes_redBlack (by decide) hlink (by decide)

end Rbtree

end Kalisto
