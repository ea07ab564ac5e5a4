import Kalisto.Adt.Rbtree

/-!
# Links without colours

The rebalancing functions change links by rotations only; everything else they write is a colour.

* `links` — the tree with all nodes in one colour, so that two trees have the same links if and only if
  these are equal;
* `Rotated n t t'` — at most `n` rotations take the links of `t` to those of `t'`;
* one lemma for each part of the two functions that says how many rotations it makes.
-/

namespace Kalisto

namespace Rbtree

variable {α : Type} [DecidableEq α] {t t' t₁ : Rbtree α}

/-- The links: shape and parents, with all nodes in one colour. -/
def links (t : Rbtree α) : Rbtree α := { t with node := fun x => { t.node x with color := .black } }

/-! ### The operations on links -/

theorem setNode_links (t : Rbtree α) (x : α) (n : Rbnode α) :
    (t.setNode x n).links = t.links.setNode x { n with color := .black } := by
  simp only [links, setNode, Rbtree.mk.injEq, true_and]
  funext y
  by_cases h : y = x
  · subst h
    simp
  · simp [h]

@[simp] theorem setColor_links (t : Rbtree α) (x : α) (c : Color) : (t.setColor x c).links = t.links := by
  rw [setColor, setNode_links]
  simp only [links, setNode, Rbtree.mk.injEq, true_and]
  exact Function.update_eq_self x _

@[simp] theorem setParent_links (t : Rbtree α) (x : α) (v : Option α) :
    (t.setParent x v).links = t.links.setParent x v := setNode_links ..

@[simp] theorem setChild_links (t : Rbtree α) (x : α) (s : Side) (v : Option α) :
    (t.setChild x s v).links = t.links.setChild x s v := by
  cases s <;> exact setNode_links ..

@[simp] theorem adopt_links (t : Rbtree α) (child parent : Option α) :
    (t.adopt child parent).links = t.links.adopt child parent := by
  cases child with
  | none => rfl
  | some c => exact setParent_links ..

omit [DecidableEq α] in
@[simp] theorem links_child (t : Rbtree α) (x : α) (s : Side) :
    (t.links.node x).child s = (t.node x).child s := by cases s <;> rfl

@[simp] theorem moveParent_links (t : Rbtree α) (old : α) (new : Option α) :
    (t.moveParent old new).1.links = (t.links.moveParent old new).1 := by
  have hparent : (t.links.node old).parent = (t.node old).parent := rfl
  simp only [moveParent, hparent, ← adopt_links]
  cases (t.node old).parent with
  | none => rfl
  | some p =>
    have hleft : ((t.adopt new (some p)).links.node p).left = ((t.adopt new (some p)).node p).left := rfl
    simp only [hleft]
    split <;> exact setChild_links ..

/-- **A rotation** does not look at colours. -/
theorem rotateToward_links {s : Side} {p : α} (h : t.rotateToward s p = .ok t') :
    t.links.rotateToward s p = .ok t'.links := by
  obtain ⟨c, hc, h⟩ := Outcome.bind_eq_ok.mp h
  cases h
  simp only [rotateToward, links_child, hc, Outcome.ok_bind, Outcome.pure_eq, setParent_links,
    moveParent_links, adopt_links, ← setChild_links]

/-! ### A number of rotations -/

/-- Rotations, one after the other: the side and the pivot of each. -/
def rotations : List (Side × α) → Rbtree α → Outcome Fault (Rbtree α)
  | [], t => .ok t
  | (s, p) :: ps, t => do
    let t ← t.rotateToward s p
    rotations ps t

/-- **At most `n` rotations** of the links of `t` give the links of `t'`. -/
def Rotated (n : ℕ) (t t' : Rbtree α) : Prop :=
  ∃ ps : List (Side × α), ps.length ≤ n ∧ rotations ps t.links = .ok t'.links

theorem rotations_append (ps qs : List (Side × α)) (t : Rbtree α) :
    rotations (ps ++ qs) t = rotations ps t >>= rotations qs := by
  induction ps generalizing t with
  | nil => rfl
  | cons p ps ih =>
    obtain ⟨s, x⟩ := p
    simp only [List.cons_append, rotations]
    cases t.rotateToward s x with
    | ok t₁ => exact ih t₁
    | fault e => rfl
    | timeout => rfl

theorem Rotated.of_links {n : ℕ} (h : t'.links = t.links) : Rotated n t t' :=
  ⟨[], Nat.zero_le n, by rw [h]; rfl⟩

theorem Rotated.single {s : Side} {p : α} (h : t.rotateToward s p = .ok t') : Rotated 1 t t' := by
  refine ⟨[(s, p)], le_rfl, ?_⟩
  rw [rotations, rotateToward_links h]
  rfl

theorem Rotated.trans {n m : ℕ} (h : Rotated n t t₁) (h' : Rotated m t₁ t') : Rotated (n + m) t t' := by
  obtain ⟨ps, hps, hrun⟩ := h
  obtain ⟨qs, hqs, hrun'⟩ := h'
  refine ⟨ps ++ qs, ?_, ?_⟩
  · rw [List.length_append]
    omega
  · rw [rotations_append, hrun]
    exact hrun'

theorem Rotated.mono {n m : ℕ} (h : Rotated n t t') (hnm : n ≤ m) : Rotated m t t' := by
  obtain ⟨ps, hps, hrun⟩ := h
  exact ⟨ps, hps.trans hnm, hrun⟩

theorem Rotated.rotate {p : α} {left : Bool} (h : t.rotate p left = .ok t') : Rotated 1 t t' := by
  cases left <;> exact Rotated.single h

/-- Painting nodes of the result. -/
theorem Rotated.paint {n : ℕ} (h : Rotated n t t₁) (hlinks : t'.links = t₁.links) : Rotated n t t' := by
  rw [Rotated, hlinks]
  exact h

/-- Painting nodes before. -/
theorem Rotated.repaint {n : ℕ} (hlinks : t₁.links = t.links) (h : Rotated n t₁ t') : Rotated n t t' := by
  rw [Rotated, ← hlinks]
  exact h

/-! ### Insertion -/

/-- The end of an iteration of `__rbtree_rebalance_insert` makes one or two rotations. -/
theorem insertRotate_rotated {node parent gparent : α} {r : Rbtree α × α}
    (h : t.insertRotate node parent gparent = .ok r) : Rotated 2 t r.1 := by
  simp only [insertRotate, Outcome.pure_eq, Outcome.ok_bind] at h
  split at h
  · obtain ⟨t₁, h₁, h⟩ := Outcome.bind_eq_ok.mp h
    obtain ⟨parent', -, h⟩ := Outcome.bind_eq_ok.mp h
    obtain ⟨t₂, h₂, h⟩ := Outcome.bind_eq_ok.mp h
    cases h
    exact ((Rotated.rotate h₁).trans (.rotate h₂)).paint (by simp)
  · obtain ⟨t₂, h₂, h⟩ := Outcome.bind_eq_ok.mp h
    cases h
    exact ((Rotated.rotate h₂).paint (by simp)).mono (by omega)

/-! ### Deletion -/

/-- A red sibling takes one rotation. -/
theorem deleteSibling_rotated {parent : α} {nleft : Bool} {sibling : Option α} {r : Rbtree α × Option α}
    (h : t.deleteSibling parent nleft sibling = .ok r) : Rotated 1 t r.1 := by
  simp only [deleteSibling] at h
  split at h
  · obtain ⟨t₁, h₁, h⟩ := Outcome.bind_eq_ok.mp h
    obtain ⟨s, -, h⟩ := Outcome.bind_eq_ok.mp h
    cases h
    exact (Rotated.rotate h₁).paint (by simp)
  · cases h
    exact .of_links rfl

theorem deleteLast_rotated {parent sibling : α} {nleft : Bool} {inner : Option α}
    (h : t.deleteLast parent nleft sibling inner = .ok t') : Rotated 1 t t' := by
  obtain ⟨-, -, h⟩ := Outcome.bind_eq_ok.mp h
  obtain ⟨t₁, h₁, h⟩ := Outcome.bind_eq_ok.mp h
  obtain ⟨i, -, h⟩ := Outcome.bind_eq_ok.mp h
  cases h
  exact (Rotated.rotate h₁).paint (by simp)

/-- A sibling with a red child takes one or two rotations. -/
theorem deleteNephews_rotated {parent sibling : α} {nleft : Bool}
    (h : t.deleteNephews parent nleft sibling = .ok t') : Rotated 2 t t' := by
  simp only [deleteNephews, Outcome.pure_eq, Outcome.ok_bind] at h
  generalize (if nleft = true then (t.node sibling).right else (t.node sibling).left) = inner at h
  generalize (if nleft = true then (t.node sibling).left else (t.node sibling).right) = outer at h
  split at h
  · obtain ⟨-, -, h⟩ := Outcome.bind_eq_ok.mp h
    obtain ⟨t₁, h₁, h⟩ := Outcome.bind_eq_ok.mp h
    obtain ⟨o, -, h⟩ := Outcome.bind_eq_ok.mp h
    exact ((Rotated.rotate h₁).paint (by simp)).trans (deleteLast_rotated h)
  · exact (deleteLast_rotated h).mono (by omega)

/-- A sibling that is black: its colour changes and the loop goes on, or the loop ends after one or two
rotations. -/
theorem deleteBlack_rotated {parent : α} {nleft : Bool} {sibling : Option α}
    {r : (Rbtree α × Option α × Option α) ⊕ (Rbtree α × Option α)}
    (h : t.deleteBlack parent nleft sibling = .ok r) :
    (∀ st, r = .inl st → st.1.links = t.links) ∧ ∀ st, r = .inr st → Rotated 2 t st.1 := by
  obtain ⟨s, -, h⟩ := Outcome.bind_eq_ok.mp h
  split at h
  · cases h
    refine ⟨?_, nofun⟩
    rintro _ ⟨⟩
    simp
  · obtain ⟨t₁, h₁, h⟩ := Outcome.bind_eq_ok.mp h
    cases h
    refine ⟨nofun, ?_⟩
    rintro _ ⟨⟩
    exact deleteNephews_rotated h₁

end Rbtree

end Kalisto
