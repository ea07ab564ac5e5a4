import Kalisto.Adt.Rbtree

/-!
# Which tree the nodes represent

`Repr t T` — the nodes of `t` are linked as the tree `T`: every node of `T` has the colour, the
child links and the parent link that its place in `T` demands, the root link is right, and no node
occurs twice.  It says nothing about nodes outside `T`.

A pointer operation works at one place, so its effect is stated on `plug k T`, the tree with a hole:
`repr_plug` splits the representation into the subtree (`Rep`) and the context (`RepCtx`).  The
results are one lemma for each operation of `adt/rbtree.c`:

* `Repr.setColor` — painting a node;
* `moveParent_spec` — exchanging the subtree below a context;
* `Repr.rotateToward` — a rotation, on either side;
* `Repr.replace` — putting another node in a node's place;
* `Repr.setLink` — hanging a new node below a `NULL` link.
-/

namespace Kalisto

variable {α : Type}

/-! ### Records on either side -/

/-- The record of a node with `h` on side `s` and `h'` on the other side. -/
def Rbnode.mkSide (s : Side) (c : Color) (h h' p : Option α) : Rbnode α :=
  match s with
  | .left => ⟨c, h, h', p⟩
  | .right => ⟨c, h', h, p⟩

@[simp] theorem Rbnode.mkSide_color (s : Side) (c : Color) (h h' p : Option α) :
    (Rbnode.mkSide s c h h' p).color = c := by cases s <;> rfl

@[simp] theorem Rbnode.mkSide_parent (s : Side) (c : Color) (h h' p : Option α) :
    (Rbnode.mkSide s c h h' p).parent = p := by cases s <;> rfl

@[simp] theorem Rbnode.mkSide_child (s : Side) (c : Color) (h h' p : Option α) :
    (Rbnode.mkSide s c h h' p).child s = h := by cases s <;> rfl

@[simp] theorem Rbnode.mkSide_child_flip (s : Side) (c : Color) (h h' p : Option α) :
    (Rbnode.mkSide s c h h' p).child s.flip = h' := by cases s <;> rfl

@[simp] theorem Rbnode.mkSide_withChild (s : Side) (c : Color) (h h' p v : Option α) :
    (Rbnode.mkSide s c h h' p).withChild s v = Rbnode.mkSide s c v h' p := by cases s <;> rfl

@[simp] theorem Rbnode.mkSide_withChild_flip (s : Side) (c : Color) (h h' p v : Option α) :
    (Rbnode.mkSide s c h h' p).withChild s.flip v = Rbnode.mkSide s c h v p := by cases s <;> rfl

theorem Rbnode.mkSide_withColor (s : Side) (c c' : Color) (h h' p : Option α) :
    { Rbnode.mkSide s c h h' p with color := c' } = Rbnode.mkSide s c' h h' p := by cases s <;> rfl

theorem Rbnode.mkSide_withParent (s : Side) (c : Color) (h h' p p' : Option α) :
    { Rbnode.mkSide s c h h' p with parent := p' } = Rbnode.mkSide s c h h' p' := by
  cases s <;> rfl

@[simp] theorem Rbnode.withChild_parent (n : Rbnode α) (s : Side) (v : Option α) :
    (n.withChild s v).parent = n.parent := by cases s <;> rfl

@[simp] theorem Rbnode.withChild_color (n : Rbnode α) (s : Side) (v : Option α) :
    (n.withChild s v).color = n.color := by cases s <;> rfl

namespace Rbtree

/-! ### The representation -/

/-- The memory `m` holds the subtree `T` with parent `p`. -/
def Rep (m : α → Rbnode α) : Option α → CTree α → Prop
  | _, .nil => True
  | p, .node c l x r => m x = ⟨c, l.root, r.root, p⟩ ∧ Rep m (some x) l ∧ Rep m (some x) r

/-- The memory `m` holds the context `k`, around a subtree with root `h`. -/
def RepCtx (m : α → Rbnode α) : Option α → Ctx α → Prop
  | _, [] => True
  | h, f :: k => m f.node = Rbnode.mkSide f.side f.color h f.sibling.root (Ctx.above k) ∧
      Rep m (some f.node) f.sibling ∧ RepCtx m (some f.node) k

/-- The nodes are linked as the tree `T`. -/
structure Repr (t : Rbtree α) (T : CTree α) : Prop where
  root : t.root = T.root
  rep : Rep t.node none T
  nodup : T.toList.Nodup

theorem rep_join {m : α → Rbnode α} {p : Option α} {s : Side} {c : Color} {a b : CTree α} {x : α} :
    Rep m p (CTree.join s c a x b) ↔
      m x = Rbnode.mkSide s c a.root b.root p ∧ Rep m (some x) a ∧ Rep m (some x) b := by
  cases s with
  | left => rfl
  | right =>
    simp only [CTree.join, Rep, Rbnode.mkSide]
    rw [and_comm (a := Rep m (some x) b)]

theorem rep_plug {m : α → Rbnode α} {k : Ctx α} {T : CTree α} :
    Rep m none (Ctx.plug k T) ↔ RepCtx m T.root k ∧ Rep m (Ctx.above k) T := by
  induction k generalizing T with
  | nil => simp [Ctx.plug, RepCtx, Ctx.above]
  | cons f k ih =>
    rw [Ctx.plug, ih, Frame.fill, CTree.root_join, rep_join]
    simp only [RepCtx, Ctx.above]
    tauto

/-- **The representation, split at a hole.** -/
theorem repr_plug {t : Rbtree α} {k : Ctx α} {T : CTree α} :
    t.Repr (Ctx.plug k T) ↔ t.root = Ctx.topOf k T.root ∧ RepCtx t.node T.root k ∧
      Rep t.node (Ctx.above k) T ∧ (T.toList ++ Ctx.nodes k).Nodup := by
  constructor
  · rintro ⟨h1, h2, h3⟩
    obtain ⟨h2a, h2b⟩ := rep_plug.mp h2
    exact ⟨by rw [h1, Ctx.root_plug], h2a, h2b, Ctx.nodup_plug.mp h3⟩
  · rintro ⟨h1, h2a, h2b, h3⟩
    exact ⟨by rw [h1, Ctx.root_plug], rep_plug.mpr ⟨h2a, h2b⟩, Ctx.nodup_plug.mpr h3⟩

/-! ### Frame lemmas -/

theorem Rep.congr {m m' : α → Rbnode α} {p : Option α} {T : CTree α} (h : Rep m p T)
    (heq : ∀ x ∈ T.toList, m' x = m x) : Rep m' p T := by
  induction T generalizing p with
  | nil => trivial
  | node c l x r ihl ihr =>
    obtain ⟨hx, hl, hr⟩ := h
    simp only [CTree.toList, List.mem_append, List.mem_cons] at heq
    refine ⟨by rw [heq x (by simp), hx], ihl hl fun y hy => heq y (by simp [hy]),
      ihr hr fun y hy => heq y (by simp [hy])⟩

theorem RepCtx.congr {m m' : α → Rbnode α} {h : Option α} {k : Ctx α} (hk : RepCtx m h k)
    (heq : ∀ x ∈ Ctx.nodes k, m' x = m x) : RepCtx m' h k := by
  induction k generalizing h with
  | nil => trivial
  | cons f k ih =>
    obtain ⟨hf, hs, hk⟩ := hk
    simp only [Ctx.nodes, List.mem_append, List.mem_cons] at heq
    refine ⟨by rw [heq f.node (by simp), hf], hs.congr fun y hy => heq y (by simp [hy]),
      ih hk fun y hy => heq y (by simp [hy])⟩

/-- A subtree gets another parent. -/
theorem Rep.reparent {m m' : α → Rbnode α} {p p' : Option α} {T : CTree α} (h : Rep m p T)
    (hn : T.toList.Nodup)
    (hroot : ∀ x, T.root = some x → m' x = { m x with parent := p' })
    (heq : ∀ x ∈ T.toList, T.root ≠ some x → m' x = m x) : Rep m' p' T := by
  cases T with
  | nil => trivial
  | node c l x r =>
    obtain ⟨hx, hl, hr⟩ := h
    simp only [CTree.toList, List.nodup_append, List.nodup_cons, List.mem_cons] at hn
    obtain ⟨hnl, ⟨hxr, hnr⟩, hlr⟩ := hn
    refine ⟨?_, hl.congr fun y hy => ?_, hr.congr fun y hy => ?_⟩
    · rw [hroot x rfl, hx]
    · refine heq y (by simp [CTree.toList, hy]) ?_
      simp only [CTree.root, ne_eq, Option.some.injEq]
      intro hxy
      exact hlr y hy x (Or.inl rfl) hxy.symm
    · refine heq y (by simp [CTree.toList, hy]) ?_
      simp only [CTree.root, ne_eq, Option.some.injEq]
      rintro rfl
      exact hxr hy

/-- The record of the root of a represented subtree. -/
theorem Rep.parent {m : α → Rbnode α} {p : Option α} {T : CTree α} (h : Rep m p T) {x : α}
    (hx : T.root = some x) : (m x).parent = p := by
  cases T with
  | nil => cases hx
  | node c l y r =>
    cases hx
    rw [h.1]

theorem isRed_root {t : Rbtree α} {p : Option α} {T : CTree α} (h : Rep t.node p T) :
    t.isRed T.root = T.isRed := by
  cases T with
  | nil => rfl
  | node c l x r =>
    simp only [CTree.root, isRed, h.1]
    cases c <;> rfl

theorem isBlack_root {t : Rbtree α} {p : Option α} {T : CTree α} (h : Rep t.node p T) :
    t.isBlack T.root = !T.isRed := by
  cases T with
  | nil => rfl
  | node c l x r =>
    simp only [CTree.root, isBlack, h.1]
    cases c <;> rfl

variable [DecidableEq α]

@[simp] theorem setNode_root (t : Rbtree α) (x : α) (n : Rbnode α) :
    (t.setNode x n).root = t.root := rfl

@[simp] theorem setNode_node (t : Rbtree α) (x y : α) (n : Rbnode α) :
    (t.setNode x n).node y = if y = x then n else t.node y := by
  simp [setNode, Function.update_apply]

@[simp] theorem setColor_node (t : Rbtree α) (x y : α) (c : Color) :
    (t.setColor x c).node y = if y = x then { t.node x with color := c } else t.node y :=
  setNode_node ..

@[simp] theorem setColor_root (t : Rbtree α) (x : α) (c : Color) :
    (t.setColor x c).root = t.root := rfl

@[simp] theorem setChild_node (t : Rbtree α) (x y : α) (s : Side) (v : Option α) :
    (t.setChild x s v).node y = if y = x then (t.node x).withChild s v else t.node y :=
  setNode_node ..

@[simp] theorem setChild_root (t : Rbtree α) (x : α) (s : Side) (v : Option α) :
    (t.setChild x s v).root = t.root := rfl

@[simp] theorem setParent_node (t : Rbtree α) (x y : α) (v : Option α) :
    (t.setParent x v).node y = if y = x then { t.node x with parent := v } else t.node y :=
  setNode_node ..

@[simp] theorem setParent_root (t : Rbtree α) (x : α) (v : Option α) :
    (t.setParent x v).root = t.root := rfl

@[simp] theorem adopt_node (t : Rbtree α) (child p : Option α) (y : α) :
    (t.adopt child p).node y =
      if child = some y then { t.node y with parent := p } else t.node y := by
  cases child with
  | none => simp [adopt]
  | some c =>
    by_cases h : y = c
    · subst h
      simp [adopt]
    · simp [adopt, h, Ne.symm h]

@[simp] theorem adopt_root (t : Rbtree α) (child p : Option α) :
    (t.adopt child p).root = t.root := by
  cases child <;> rfl

/-! ### One lemma for each operation -/

omit [DecidableEq α] in
theorem nodup_join_append {s : Side} {c : Color} {a b : CTree α} {x : α} {L : List α} :
    ((CTree.join s c a x b).toList ++ L).Nodup ↔
      (x ∉ a.toList ∧ x ∉ b.toList ∧ x ∉ L) ∧ (a.toList ++ (b.toList ++ L)).Nodup := by
  rw [((CTree.toList_join_perm s c a x b).append_right L).nodup_iff]
  simp [List.nodup_cons, not_or, and_assoc]

/-- **Painting a node.** -/
theorem Repr.setColor {t : Rbtree α} {k : Ctx α} {s : Side} {c : Color} {a b : CTree α} {x : α}
    (h : t.Repr (Ctx.plug k (CTree.join s c a x b))) (c' : Color) :
    (t.setColor x c').Repr (Ctx.plug k (CTree.join s c' a x b)) := by
  obtain ⟨hroot, hk, hrep, hnd⟩ := repr_plug.mp h
  obtain ⟨hx, ha, hb⟩ := rep_join.mp hrep
  obtain ⟨⟨hxa, hxb, hxk⟩, hnd'⟩ := nodup_join_append.mp hnd
  have hother : ∀ (L : List α), x ∉ L → ∀ y ∈ L, (t.setColor x c').node y = t.node y := by
    intro L hL y hy
    rw [setColor_node, if_neg (ne_of_mem_of_not_mem hy hL)]
  refine repr_plug.mpr ⟨?_, ?_, rep_join.mpr ⟨?_, ?_, ?_⟩, nodup_join_append.mpr
    ⟨⟨hxa, hxb, hxk⟩, hnd'⟩⟩
  · simpa using hroot
  · simp only [CTree.root_join] at hk ⊢
    exact hk.congr (hother _ hxk)
  · rw [setColor_node, if_pos rfl, hx, Rbnode.mkSide_withColor]
  · exact ha.congr (hother _ hxa)
  · exact hb.congr (hother _ hxb)

/-- **`__rbtree_move_parent` exchanges what is below a context.**  Outside the context only the new
subtree's root changes, which gets the parent of the old one. -/
theorem moveParent_spec {t : Rbtree α} {k : Ctx α} (old : α) (new : Option α)
    (hroot : t.root = Ctx.topOf k (some old)) (hk : RepCtx t.node (some old) k)
    (hpar : (t.node old).parent = Ctx.above k) (hnd : (Ctx.nodes k).Nodup)
    (hold : old ∉ Ctx.nodes k) (hnew : ∀ n, new = some n → n ∉ Ctx.nodes k) :
    (t.moveParent old new).2 = Ctx.above k ∧
      (t.moveParent old new).1.root = Ctx.topOf k new ∧
      RepCtx (t.moveParent old new).1.node new k ∧
      ∀ x, x ∉ Ctx.nodes k → (t.moveParent old new).1.node x =
        if new = some x then { t.node x with parent := Ctx.above k } else t.node x := by
  cases k with
  | nil =>
    simp only [moveParent, hpar, Ctx.above]
    refine ⟨trivial, rfl, trivial, fun x _ => adopt_node ..⟩
  | cons f k =>
    obtain ⟨hf, hs, hk'⟩ := hk
    simp only [Ctx.nodes, List.nodup_cons, List.mem_append, not_or] at hnd
    obtain ⟨⟨hfs, hfk⟩, hnd'⟩ := hnd
    have hne : ∀ y ∈ Ctx.nodes (f :: k), new ≠ some y := fun y hy h => hnew y h hy
    have hfne : new ≠ some f.node := hne _ (by simp [Ctx.nodes])
    -- the link that pointed at the old child is the one on the side of the hole
    have hside : t.moveParent old new =
        ((t.adopt new (some f.node)).setChild f.node f.side new, some f.node) := by
      have hnode : (t.adopt new (some f.node)).node f.node = t.node f.node := by
        rw [adopt_node, if_neg hfne]
      simp only [moveParent, hpar, Ctx.above, hnode, hf]
      cases hd : f.side with
      | left => simp [Rbnode.mkSide]
      | right =>
        have hl : some old ≠ f.sibling.root := by
          intro h
          apply hold
          simp [Ctx.nodes, CTree.root_mem h.symm]
        simp [Rbnode.mkSide, hl]
    have hsame : ∀ y ∈ Ctx.nodes (f :: k), y ≠ f.node →
        ((t.adopt new (some f.node)).setChild f.node f.side new).node y = t.node y := by
      intro y hy hyf
      rw [setChild_node, if_neg hyf, adopt_node, if_neg (hne y hy)]
    rw [hside]
    refine ⟨rfl, ?_, ⟨?_, hs.congr fun y hy => ?_, hk'.congr fun y hy => ?_⟩, fun x hx => ?_⟩
    · simpa [Ctx.topOf] using hroot
    · rw [setChild_node, if_pos rfl, adopt_node, if_neg hfne, hf, Rbnode.mkSide_withChild]
    · exact hsame y (by simp [Ctx.nodes, hy]) fun h => hfs (h ▸ hy)
    · exact hsame y (by simp [Ctx.nodes, hy]) fun h => hfk (h ▸ hy)
    · have hxf : x ≠ f.node := fun h => hx (by simp [Ctx.nodes, h])
      rw [setChild_node, if_neg hxf, adopt_node]
      rfl

/-- **Taking out a node with at most one child.** -/
theorem Repr.moveParent {t : Rbtree α} {k : Ctx α} {s : Side} {c : Color} {a : CTree α} {x : α}
    (h : t.Repr (Ctx.plug k (CTree.join s c a x .nil))) :
    (t.moveParent x a.root).1.Repr (Ctx.plug k a) ∧ (t.moveParent x a.root).2 = Ctx.above k ∧
      ((t.moveParent x a.root).1.node x).color = c := by
  obtain ⟨hroot, hk, hrep, hnd⟩ := repr_plug.mp h
  obtain ⟨hx, ha, -⟩ := rep_join.mp hrep
  obtain ⟨⟨hxa, -, hxk⟩, hnd'⟩ := nodup_join_append.mp hnd
  simp only [CTree.toList, List.nil_append] at hnd'
  rw [CTree.root_join] at hroot hk
  have hdisj := List.nodup_append.mp hnd'
  have hak : ∀ y ∈ a.toList, y ∉ Ctx.nodes k := fun y hy hyk => hdisj.2.2 y hy y hyk rfl
  obtain ⟨h1, h2, h3, h4⟩ := moveParent_spec _ a.root hroot hk
    (by rw [hx, Rbnode.mkSide_parent]) hdisj.2.1 hxk fun n hn => hak n (CTree.root_mem hn)
  refine ⟨repr_plug.mpr ⟨h2, h3, ?_, hnd'⟩, h1, ?_⟩
  · refine ha.reparent hdisj.1 (fun y hy => ?_) fun y hy hyr => ?_
    · rw [h4 y (hak y (CTree.root_mem hy)), if_pos hy]
    · rw [h4 y (hak y hy), if_neg hyr]
  · rw [h4 x hxk, if_neg fun hr => hxa (CTree.root_mem hr), hx, Rbnode.mkSide_color]

/-- **A rotation.**  The pivot `p` goes down on side `s`, its child `q` on the other side takes its
place, and the colours stay with the nodes. -/
theorem Repr.rotateToward {t : Rbtree α} {k : Ctx α} {s : Side} {c c' : Color} {a b e : CTree α}
    {p q : α} (h : t.Repr (Ctx.plug k (CTree.join s c a p (CTree.join s c' b q e)))) :
    (t.rotateToward s p).Yields fun t' =>
      t'.Repr (Ctx.plug k (CTree.join s c' (CTree.join s c a p b) q e)) := by
  obtain ⟨hroot, hk, hrep, hnd⟩ := repr_plug.mp h
  obtain ⟨hp, ha, hq'⟩ := rep_join.mp hrep
  obtain ⟨hq, hb, he⟩ := rep_join.mp hq'
  rw [CTree.root_join] at hroot hk hp
  obtain ⟨⟨hpa, hpj, hpk⟩, hnd₁⟩ := nodup_join_append.mp hnd
  have hperm := CTree.toList_join_perm s c' b q e
  rw [hperm.mem_iff] at hpj
  simp only [List.mem_cons, List.mem_append, not_or] at hpj
  obtain ⟨hpq, hpb, hpe⟩ := hpj
  rw [((hperm.append_right _).append_left _).nodup_iff] at hnd₁
  have hfacts : (q ∉ a.toList ∧ q ∉ b.toList ∧ q ∉ e.toList ∧ q ∉ Ctx.nodes k) ∧
      (∀ y ∈ b.toList, y ∉ a.toList ∧ y ∉ e.toList ∧ y ∉ Ctx.nodes k) ∧
      (∀ y ∈ a.toList, y ∉ Ctx.nodes k) ∧ (∀ y ∈ e.toList, y ∉ Ctx.nodes k) ∧
      b.toList.Nodup ∧ (Ctx.nodes k).Nodup := by
    simp only [List.cons_append, List.nodup_append, List.nodup_cons, List.mem_cons,
      List.mem_append] at hnd₁
    grind
  obtain ⟨⟨hqa, hqb, hqe, hqk⟩, hbd, hak, hek, hbn, hkn⟩ := hfacts
  -- the state before the parent link is moved
  set t₁ := ((t.setChild p s.flip b.root).setChild q s (some p)).adopt b.root (some p) with ht₁
  have hrun : t.rotateToward s p = .ok ((t₁.moveParent p (some q)).1.setParent p (some q)) := by
    have h1 : ((t.setChild p s.flip b.root).setChild q s (some p)).node p =
        Rbnode.mkSide s c a.root b.root (Ctx.above k) := by
      simp [hpq, hp]
    simp only [Rbtree.rotateToward, hp, Rbnode.mkSide_child_flip, deref, Outcome.ok_bind, hq,
      Rbnode.mkSide_child, h1]
    rfl
  have ht₁p : t₁.node p = Rbnode.mkSide s c a.root b.root (Ctx.above k) := by
    have hbp : b.root ≠ some p := fun h => hpb (CTree.root_mem h)
    simp [ht₁, hbp, hpq, hp]
  have ht₁q : t₁.node q = Rbnode.mkSide s c' (some p) e.root (some p) := by
    have hbq : b.root ≠ some q := fun h => hqb (CTree.root_mem h)
    simp [ht₁, hbq, Ne.symm hpq, hq]
  have ht₁o : ∀ y, y ≠ p → y ≠ q → t₁.node y =
      if b.root = some y then { t.node y with parent := some p } else t.node y := by
    intro y hyp hyq
    simp [ht₁, hyp, hyq]
  have hbk : ∀ y ∈ Ctx.nodes k, b.root ≠ some y :=
    fun y hy h => (hbd y (CTree.root_mem h)).2.2 hy
  obtain ⟨-, h2, h3, h4⟩ := moveParent_spec (t := t₁) (k := k) p (some q)
    (by simpa [ht₁] using hroot)
    (hk.congr fun y hy => by
      rw [ht₁o y (ne_of_mem_of_not_mem hy hpk) (ne_of_mem_of_not_mem hy hqk), if_neg (hbk y hy)])
    (by rw [ht₁p, Rbnode.mkSide_parent]) hkn hpk (by rintro n ⟨⟩; exact hqk)
  set t₂ := (t₁.moveParent p (some q)).1 with ht₂
  have hout : ∀ y, y ∉ Ctx.nodes k → y ≠ p → y ≠ q → (t₂.setParent p (some q)).node y =
      if b.root = some y then { t.node y with parent := some p } else t.node y := by
    intro y hyk hyp hyq
    rw [setParent_node, if_neg hyp, h4 y hyk, if_neg (by simpa using Ne.symm hyq), ht₁o y hyp hyq]
  refine ⟨_, hrun, repr_plug.mpr ⟨?_, ?_, rep_join.mpr ⟨?_, rep_join.mpr ⟨?_, ?_, ?_⟩, ?_⟩, ?_⟩⟩
  · simpa using h2
  · rw [CTree.root_join]
    refine h3.congr fun y hy => ?_
    rw [setParent_node, if_neg (ne_of_mem_of_not_mem hy hpk)]
  · rw [setParent_node, if_neg (Ne.symm hpq), h4 q hqk, if_pos rfl, ht₁q, CTree.root_join,
      Rbnode.mkSide_withParent]
  · rw [setParent_node, if_pos rfl, h4 p hpk, if_neg (by simpa using Ne.symm hpq), ht₁p,
      Rbnode.mkSide_withParent]
  · refine ha.congr fun y hy => ?_
    rw [hout y (hak y hy) (ne_of_mem_of_not_mem hy hpa) (ne_of_mem_of_not_mem hy hqa), if_neg]
    exact fun h => (hbd y (CTree.root_mem h)).1 hy
  · refine hb.reparent hbn (fun y hy => ?_) fun y hy hyr => ?_
    · have hyb := CTree.root_mem hy
      rw [hout y (hbd y hyb).2.2 (ne_of_mem_of_not_mem hyb hpb) (ne_of_mem_of_not_mem hyb hqb),
        if_pos hy]
    · rw [hout y (hbd y hy).2.2 (ne_of_mem_of_not_mem hy hpb) (ne_of_mem_of_not_mem hy hqb),
        if_neg hyr]
  · refine he.congr fun y hy => ?_
    rw [hout y (hek y hy) (ne_of_mem_of_not_mem hy hpe) (ne_of_mem_of_not_mem hy hqe), if_neg]
    exact fun h => (hbd y (CTree.root_mem h)).2.1 hy
  · rwa [CTree.toList_rotate]

/-- **Putting another node in a node's place.** -/
theorem Repr.replace {t : Rbtree α} {k : Ctx α} {c : Color} {l r : CTree α} {x y : α}
    (h : t.Repr (Ctx.plug k (.node c l x r))) (hy : y ∉ (Ctx.plug k (.node c l x r)).toList) :
    (t.replace x (some y)).Repr (Ctx.plug k (.node c l y r)) := by
  have hx : CTree.node c l x r = CTree.join .left c l x r := rfl
  have hy' : CTree.node c l y r = CTree.join .left c l y r := rfl
  rw [Ctx.mem_plug, hx, (CTree.toList_join_perm ..).mem_iff] at hy
  simp only [List.mem_cons, List.mem_append, not_or] at hy
  obtain ⟨⟨hyx, hyl, hyr⟩, hyk⟩ := hy
  rw [hx] at h
  obtain ⟨hroot, hk, hrep, hnd⟩ := repr_plug.mp h
  obtain ⟨hxr, hl, hr⟩ := rep_join.mp hrep
  obtain ⟨⟨hxl, hxr', hxk⟩, hnd₁⟩ := nodup_join_append.mp hnd
  rw [CTree.root_join] at hroot hk
  have hfacts : l.toList.Nodup ∧ r.toList.Nodup ∧ (Ctx.nodes k).Nodup ∧
      (∀ z ∈ l.toList, z ∉ r.toList ∧ z ∉ Ctx.nodes k) ∧ ∀ z ∈ r.toList, z ∉ Ctx.nodes k := by
    simp only [List.nodup_append, List.mem_append] at hnd₁
    grind
  obtain ⟨hln, hrn, hkn, hlk, hrk⟩ := hfacts
  -- the state before the parent link is moved
  set t₁ := (t.setColor y (t.node x).color).moveChildren x (some y) with ht₁
  have hlne : ∀ z, z ∉ l.toList → l.root ≠ some z := fun z hz h => hz (CTree.root_mem h)
  have hrne : ∀ z, z ∉ r.toList → r.root ≠ some z := fun z hz h => hz (CTree.root_mem h)
  have hval : t₁ = ((((t.setColor y c).setChild y .left l.root).setChild y .right r.root).adopt
      l.root (some y)).adopt r.root (some y) := by
    simp only [ht₁, Rbtree.moveChildren, hxr, Rbnode.mkSide]
    simp [Ne.symm hyx, hxr, Rbnode.mkSide, hlne x hxl]
  have ht₁x : t₁.node x = t.node x := by
    rw [hval]
    simp [hlne x hxl, hrne x hxr', Ne.symm hyx]
  have ht₁y : t₁.node y = ⟨c, l.root, r.root, (t.node y).parent⟩ := by
    rw [hval]
    simp [hlne y hyl, hrne y hyr, Rbnode.withChild]
  have ht₁o : ∀ z, z ≠ y → t₁.node z = if l.root = some z ∨ r.root = some z then
      { t.node z with parent := some y } else t.node z := by
    intro z hzy
    rw [hval]
    by_cases h1 : l.root = some z <;> by_cases h2 : r.root = some z <;> simp [h1, h2, hzy]
  have hrootk : ∀ z ∈ Ctx.nodes k, ¬ (l.root = some z ∨ r.root = some z) := by
    rintro z hz (h | h)
    · exact (hlk z (CTree.root_mem h)).2 hz
    · exact hrk z (CTree.root_mem h) hz
  obtain ⟨-, h2, h3, h4⟩ := moveParent_spec (t := t₁) (k := k) x (some y)
    (by rw [hval]; simpa using hroot)
    (hk.congr fun z hz => by
      rw [ht₁o z (ne_of_mem_of_not_mem hz hyk), if_neg (hrootk z hz)])
    (by rw [ht₁x, hxr, Rbnode.mkSide_parent]) hkn hxk (by rintro n ⟨⟩; exact hyk)
  have hout : ∀ z, z ∉ Ctx.nodes k → z ≠ y → (t.replace x (some y)).node z =
      if l.root = some z ∨ r.root = some z then { t.node z with parent := some y }
      else t.node z := by
    intro z hzk hzy
    rw [← ht₁o z hzy]
    exact (h4 z hzk).trans (if_neg (by simpa using Ne.symm hzy))
  rw [hy']
  refine repr_plug.mpr ⟨h2, h3, rep_join.mpr ⟨?_, ?_, ?_⟩, ?_⟩
  · refine (h4 y hyk).trans ?_
    rw [if_pos rfl, ht₁y]
    rfl
  · refine hl.reparent hln (fun z hz => ?_) fun z hz hzr => ?_
    · have hzl := CTree.root_mem hz
      rw [hout z (hlk z hzl).2 (ne_of_mem_of_not_mem hzl hyl), if_pos (Or.inl hz)]
    · rw [hout z (hlk z hz).2 (ne_of_mem_of_not_mem hz hyl), if_neg]
      rintro (h | h)
      · exact hzr h
      · exact (hlk z hz).1 (CTree.root_mem h)
  · refine hr.reparent hrn (fun z hz => ?_) fun z hz hzr => ?_
    · have hzr := CTree.root_mem hz
      rw [hout z (hrk z hzr) (ne_of_mem_of_not_mem hzr hyr), if_pos (Or.inr hz)]
    · rw [hout z (hrk z hz) (ne_of_mem_of_not_mem hz hyr), if_neg]
      rintro (h | h)
      · exact (hlk z (CTree.root_mem h)).1 hz
      · exact hzr h
  · exact nodup_join_append.mpr ⟨⟨hyl, hyr, hyk⟩, hnd₁⟩

/-- The link a context leaves open. -/
def linkOf : Ctx α → ChildLink α
  | [] => .root
  | f :: _ =>
    match f.side with
    | .left => .left f.node
    | .right => .right f.node

/-- **Hanging a new red node below an open link.** -/
theorem Repr.setLink {t : Rbtree α} {k : Ctx α} {x : α} (h : t.Repr (Ctx.plug k .nil))
    (hx : x ∉ (Ctx.plug k .nil).toList) :
    ((t.setNode x ⟨.red, none, none, Ctx.above k⟩).setLink (linkOf k) (some x)).Repr
      (Ctx.plug k (.node .red .nil x .nil)) := by
  obtain ⟨hroot, hk, -, hnd⟩ := repr_plug.mp h
  rw [Ctx.mem_plug] at hx
  simp only [CTree.toList, List.not_mem_nil, false_or] at hx
  simp only [CTree.toList, List.nil_append] at hnd
  have hnd' : ((CTree.node .red .nil x .nil).toList ++ Ctx.nodes k).Nodup := by
    simp [CTree.toList, hx, hnd]
  cases k with
  | nil =>
    refine repr_plug.mpr ⟨rfl, trivial, ⟨?_, trivial, trivial⟩, hnd'⟩
    simp [Rbtree.setLink, linkOf, CTree.root]
  | cons f k =>
    obtain ⟨hf, hs, hk'⟩ := hk
    simp only [Ctx.nodes, List.mem_cons, List.mem_append, not_or] at hx
    obtain ⟨hxf, hxs, hxk⟩ := hx
    simp only [Ctx.nodes, List.nodup_cons, List.mem_append, not_or] at hnd
    obtain ⟨⟨hfs, hfk⟩, -⟩ := hnd
    have hset : (t.setNode x ⟨.red, none, none, Ctx.above (f :: k)⟩).setLink (linkOf (f :: k))
        (some x) = (t.setNode x ⟨.red, none, none, some f.node⟩).setChild f.node f.side (some x) := by
      simp only [linkOf, Rbtree.setLink, Ctx.above]
      cases f.side <;> rfl
    rw [hset]
    refine repr_plug.mpr ⟨?_, ⟨?_, hs.congr fun y hy => ?_, hk'.congr fun y hy => ?_⟩,
      ⟨?_, trivial, trivial⟩, hnd'⟩
    · simpa [Ctx.topOf] using hroot
    · simp only [setChild_node, if_true, setNode_node, if_neg (Ne.symm hxf), hf,
        Rbnode.mkSide_withChild, CTree.root]
    · simp only [setChild_node, setNode_node, if_neg (ne_of_mem_of_not_mem hy hfs),
        if_neg (ne_of_mem_of_not_mem hy hxs)]
    · simp only [setChild_node, setNode_node, if_neg (ne_of_mem_of_not_mem hy hfk),
        if_neg (ne_of_mem_of_not_mem hy hxk)]
    · simp [hxf, CTree.root, Ctx.above]

end Rbtree

end Kalisto
