import Kalisto.Adt.RbtreeDelete

/-!
# Walking through the tree

`rbtree_first`, `rbtree_last`, `rbtree_next` and `rbtree_prev` of `adt/rbtree.h`.  The functions come in
pairs that differ in the side only, so each pair is one function of a side: a walk towards that side.

* `extreme_spec` — the loop of `__rbtree_first` and `__rbtree_last` ends at the node that comes first;
* `climb_spec` — the loop over the parents ends at the first node beyond the subtree;
* `Repr.neighbour` — `__rbtree_next` and `__rbtree_prev` return the next node of the walk;
* `rbtree_iteration` — all of it for the public functions, and a whole iteration.

The colours play no part, so the trees are arbitrary binary trees.
-/

namespace Kalisto

variable {α : Type}

namespace Rbtree

/-! ### The code -/

/-- The loop of `__rbtree_first` and `__rbtree_last`: down to the last node on one side. -/
def extreme (s : Side) (fuel : ℕ) (t : Rbtree α) (root : α) : Outcome Fault α :=
  Outcome.loop (fun x => .ok (match (t.node x).child s with
    | some c => .inl c
    | none => .inr x)) fuel root

/-- `__rbtree_last`. -/
def last (fuel : ℕ) (t : Rbtree α) (root : α) : Outcome Fault α := t.extreme .right fuel root

/-- `rbtree_last`. -/
def rbtreeLast (fuel : ℕ) (t : Rbtree α) (root : Option α) : Outcome Fault α := do
  assert root.isSome
  let root ← deref root
  t.last fuel root

variable [DecidableEq α]

/-- The loop over the parents in `__rbtree_next` and `__rbtree_prev`, and `return node->parent`. -/
def climb (s : Side) (fuel : ℕ) (t : Rbtree α) (node : α) : Outcome Fault (Option α) :=
  Outcome.loop (fun x => .ok (match (t.node x).parent with
    | some p => if some x = (t.node p).child s then .inl p else .inr (some p)
    | none => .inr none)) fuel node

/-- `__rbtree_next` for `right`, `__rbtree_prev` for `left`. -/
def neighbour (s : Side) (fuel : ℕ) (t : Rbtree α) (node : α) : Outcome Fault (Option α) :=
  match (t.node node).child s with
  | some c => do
    let x ← t.extreme s.flip fuel c
    return some x
  | none => t.climb s fuel node

/-- `__rbtree_next`. -/
def next (fuel : ℕ) (t : Rbtree α) (node : α) : Outcome Fault (Option α) := t.neighbour .right fuel node

/-- `__rbtree_prev`. -/
def prev (fuel : ℕ) (t : Rbtree α) (node : α) : Outcome Fault (Option α) := t.neighbour .left fuel node

/-- `rbtree_next`. -/
def rbtreeNext (fuel : ℕ) (t : Rbtree α) (node : Option α) : Outcome Fault (Option α) := do
  assert node.isSome
  let node ← deref node
  t.next fuel node

/-- `rbtree_prev`. -/
def rbtreePrev (fuel : ℕ) (t : Rbtree α) (node : Option α) : Outcome Fault (Option α) := do
  assert node.isSome
  let node ← deref node
  t.prev fuel node

/-- The rest of an iteration from a node on: the nodes in the order in which `rbtree_next` gives them. -/
def iterateFrom (t : Rbtree α) (fuel : ℕ) : ℕ → α → Outcome Fault (List α)
  | 0, _ => .timeout
  | n + 1, x => do
    match ← t.rbtreeNext fuel (some x) with
    | some y => do
      let xs ← t.iterateFrom fuel n y
      return x :: xs
    | none => return [x]

/-- **An iteration**: `rbtree_first`, and `rbtree_next` until it returns `NULL`. -/
def iterate (t : Rbtree α) (fuel : ℕ) : Outcome Fault (List α) := do
  let x ← t.rbtreeFirst fuel t.root
  t.iterateFrom fuel fuel x

/-! ### Down and up -/

omit [DecidableEq α] in
/-- **The loop down** ends at the node that a walk away from the side begins with. -/
theorem extreme_spec (s : Side) {t : Rbtree α} {p : Option α} {T : CTree α} {x : α} {fuel : ℕ}
    (h : Rep t.node p T) (hx : T.root = some x) (hfuel : T.toList.length ≤ fuel) :
    ∃ y, t.extreme s fuel x = .ok y ∧ (T.listToward s.flip).head? = some y := by
  induction T generalizing p x fuel with
  | nil => cases hx
  | node c l z r ihl ihr =>
    obtain rfl : z = x := Option.some.inj hx
    simp only [CTree.toList, List.length_append, List.length_cons] at hfuel
    obtain ⟨fuel, rfl⟩ : ∃ n, fuel = n + 1 := ⟨fuel - 1, by omega⟩
    obtain ⟨a, b, hjoin, iha, hlen⟩ : ∃ a b, CTree.node c l z r = CTree.join s c a z b ∧
        (∀ {p x fuel}, Rep t.node p a → a.root = some x → a.toList.length ≤ fuel →
          ∃ y, t.extreme s fuel x = .ok y ∧ (a.listToward s.flip).head? = some y) ∧
        a.toList.length ≤ fuel := by
      cases s with
      | left => exact ⟨l, r, rfl, ihl, by omega⟩
      | right => exact ⟨r, l, rfl, ihr, by omega⟩
    rw [hjoin] at h ⊢
    obtain ⟨hz, ha, -⟩ := rep_join.mp h
    rw [← CTree.join_flip, CTree.listToward_join]
    cases hroot : a.root with
    | none =>
      obtain rfl := CTree.root_eq_none.mp hroot
      refine ⟨z, Outcome.loop_exit ?_ fuel, by simp⟩
      rw [hz, Rbnode.mkSide_child]
      rfl
    | some w =>
      obtain ⟨y, hrun, hy⟩ := iha ha hroot hlen
      refine ⟨y, (Outcome.loop_next ?_ fuel).trans hrun, ?_⟩
      · rw [hz, Rbnode.mkSide_child, hroot]
      · rw [List.head?_append, hy]
        rfl

/-- **The loop up** ends at the first node that a walk towards the side comes to after the subtree. -/
theorem climb_spec (s : Side) {t : Rbtree α} {k : Ctx α} {T : CTree α} {x : α} {fuel : ℕ}
    (h : t.Repr (Ctx.plug k T)) (hx : T.root = some x) (hfuel : k.length < fuel) :
    t.climb s fuel x = .ok (Ctx.ahead s k).head? := by
  induction k generalizing T x fuel with
  | nil =>
    obtain ⟨fuel, rfl⟩ : ∃ n, fuel = n + 1 := ⟨fuel - 1, by omega⟩
    refine Outcome.loop_exit ?_ fuel
    rw [(repr_plug.mp h).2.2.1.parent hx]
    rfl
  | cons f k ih =>
    simp only [List.length_cons] at hfuel
    obtain ⟨fuel, rfl⟩ : ∃ n, fuel = n + 1 := ⟨fuel - 1, by omega⟩
    obtain ⟨-, ⟨hf, -, -⟩, hrep, hnd⟩ := repr_plug.mp h
    have hpar : (t.node x).parent = some f.node := hrep.parent hx
    rw [Ctx.ahead]
    by_cases hs : f.side = s
    · -- the subtree is on the side, so its parent comes before it
      subst hs
      rw [if_pos rfl]
      refine (Outcome.loop_next ?_ fuel).trans (ih (T := f.fill T) h (CTree.root_join ..) (by omega))
      simp only [hpar, hf, hx, Rbnode.mkSide_child, if_true]
    · have hflip : s = f.side.flip := by
        rcases s.eq_or_eq_flip f.side with hd | hd
        · exact absurd hd hs
        · rw [hd, Side.flip_flip]
      have hne : some x ≠ f.sibling.root := by
        intro hroot
        have hdisj := (List.nodup_append.mp hnd).2.2 x (CTree.root_mem hx) x
        exact hdisj (by simp [Ctx.nodes, CTree.root_mem hroot.symm]) rfl
      rw [if_neg hs]
      refine Outcome.loop_exit ?_ fuel
      simp only [hpar, hf, hflip, Rbnode.mkSide_child_flip, if_neg hne]
      rfl

/-- **The next node** of a walk: the first node of the subtree on the side, or the first one beyond. -/
theorem Repr.neighbour_join {s : Side} {t : Rbtree α} {k : Ctx α} {c : Color} {a b : CTree α} {x : α}
    {fuel : ℕ} (h : t.Repr (Ctx.plug k (CTree.join s c a x b)))
    (hfuel : (Ctx.plug k (CTree.join s c a x b)).toList.length ≤ fuel) :
    t.neighbour s fuel x = .ok (a.listToward s ++ Ctx.ahead s k).head? := by
  have hlen := (Ctx.length_le k .nil).trans_eq (Ctx.toList_plug_perm k .nil).length_eq
  have hperm := (Ctx.toList_plug_perm k (CTree.join s c a x b)).length_eq
  have hjoin := (CTree.toList_join_perm s c a x b).length_eq
  simp only [CTree.toList, List.nil_append, List.length_append, List.length_cons] at hlen hperm hjoin
  obtain ⟨hx, ha, -⟩ := rep_join.mp (repr_plug.mp h).2.2.1
  rw [neighbour, hx, Rbnode.mkSide_child]
  cases hroot : a.root with
  | none =>
    obtain rfl := CTree.root_eq_none.mp hroot
    simpa using climb_spec s h (CTree.root_join ..) (show k.length < fuel by omega)
  | some w =>
    obtain ⟨y, hrun, hy⟩ := extreme_spec s.flip ha hroot (show _ ≤ fuel by omega)
    rw [Side.flip_flip] at hy
    simp only [hrun, Outcome.ok_bind, Outcome.pure_eq, List.head?_append, hy]
    rfl

/-- **`__rbtree_next` and `__rbtree_prev`**: what stands behind the node in the order towards the side. -/
theorem Repr.neighbour {s : Side} {t : Rbtree α} {T : CTree α} {A B : List α} {x : α} {fuel : ℕ}
    (h : t.Repr T) (hx : T.listToward s = A ++ x :: B) (hfuel : T.toList.length ≤ fuel) :
    t.neighbour s fuel x = .ok B.head? := by
  have hmem : x ∈ T.toList := by
    rw [← CTree.mem_listToward (s := s), hx]
    simp
  obtain ⟨k, c, l, r, rfl⟩ := Ctx.exists_plug hmem
  obtain ⟨a, b, hjoin⟩ : ∃ a b, CTree.node c l x r = CTree.join s c a x b := by
    cases s with
    | left => exact ⟨l, r, rfl⟩
    | right => exact ⟨r, l, rfl⟩
  rw [hjoin] at h hx hfuel
  rw [h.neighbour_join hfuel]
  have hcut : ((Ctx.ahead s.flip k).reverse ++ b.listToward s) ++ x :: (a.listToward s ++ Ctx.ahead s k) =
      A ++ x :: B := by
    rw [← hx, Ctx.listToward_plug, CTree.listToward_join]
    simp
  -- the node occurs once, so there is one place to cut the list at
  have hnd := CTree.nodup_listToward (s := s).mpr h.nodup
  rw [hx, List.nodup_middle, List.nodup_cons, List.mem_append, not_or] at hnd
  rw [((List.append_cons_inj_of_notMem hnd.1.1 hnd.1.2).mp hcut.symm).2.2]

/-! ### Whole iterations -/

/-- The list of the nodes, cut at a node. -/
theorem Repr.next_prev {t : Rbtree α} {T : CTree α} {A B : List α} {x : α} {fuel : ℕ} (h : t.Repr T)
    (hx : T.toList = A ++ x :: B) (hfuel : T.toList.length ≤ fuel) :
    t.rbtreeNext fuel (some x) = .ok B.head? ∧ t.rbtreePrev fuel (some x) = .ok A.getLast? := by
  have hback : T.listToward .left = B.reverse ++ x :: A.reverse := by
    rw [CTree.listToward, hx]
    simp
  refine ⟨h.neighbour (s := .right) hx hfuel, ?_⟩
  rw [← List.head?_reverse]
  exact h.neighbour hback hfuel

omit [DecidableEq α] in
/-- **The first and the last node.** -/
theorem Repr.first_last {t : Rbtree α} {T : CTree α} {fuel : ℕ} (h : t.Repr T) (hne : T.toList ≠ [])
    (hfuel : T.toList.length ≤ fuel) :
    ∃ x y, t.rbtreeFirst fuel t.root = .ok x ∧ t.rbtreeLast fuel t.root = .ok y ∧
      T.toList.head? = some x ∧ T.toList.getLast? = some y := by
  cases T with
  | nil => exact absurd rfl hne
  | node c l r z =>
    have hroot : t.root = some r := h.root
    obtain ⟨x, hfirst, hx⟩ := extreme_spec .left h.rep rfl hfuel
    obtain ⟨y, hlast, hy⟩ := extreme_spec .right h.rep rfl hfuel
    refine ⟨x, y, ?_, ?_, hx, ?_⟩
    · rw [hroot]
      exact hfirst
    · rw [hroot]
      exact hlast
    · rw [← List.head?_reverse]
      exact hy

/-- The rest of an iteration visits the rest of the list. -/
theorem Repr.iterateFrom {t : Rbtree α} {T : CTree α} {A B : List α} {x : α} {fuel n : ℕ} (h : t.Repr T)
    (hx : T.toList = A ++ x :: B) (hfuel : T.toList.length ≤ fuel) (hn : B.length < n) :
    t.iterateFrom fuel n x = .ok (x :: B) := by
  induction B generalizing A x n with
  | nil =>
    obtain ⟨n, rfl⟩ : ∃ i, n = i + 1 := ⟨n - 1, by omega⟩
    rw [Rbtree.iterateFrom, (h.next_prev hx hfuel).1]
    rfl
  | cons y B ih =>
    simp only [List.length_cons] at hn
    obtain ⟨n, rfl⟩ : ∃ i, n = i + 1 := ⟨n - 1, by omega⟩
    have hcut : T.toList = (A ++ [x]) ++ y :: B := by
      rw [hx]
      simp
    have hrest := ih hcut (show B.length < n by omega)
    rw [Rbtree.iterateFrom, (h.next_prev hx hfuel).1]
    simp only [List.head?_cons, Outcome.ok_bind, hrest, Outcome.pure_eq]

/-- **The whole iteration** visits the nodes in order. -/
theorem Repr.iterate {t : Rbtree α} {T : CTree α} {fuel : ℕ} (h : t.Repr T) (hne : T.toList ≠ [])
    (hfuel : T.toList.length ≤ fuel) : t.iterate fuel = .ok T.toList := by
  obtain ⟨x, y, hfirst, -, hx, -⟩ := h.first_last hne hfuel
  obtain ⟨B, hB⟩ := List.head?_eq_some_iff.mp hx
  rw [Rbtree.iterate, hfirst, Outcome.ok_bind, hB]
  have hlen : B.length < fuel := by
    rw [hB, List.length_cons] at hfuel
    omega
  exact h.iterateFrom (A := []) hB hfuel hlen

/-- **The values of the two functions**, whatever the bound on their loops. -/
theorem Repr.returns_next_prev {t : Rbtree α} {T : CTree α} {A B : List α} {x : α} (h : t.Repr T)
    (hx : T.toList = A ++ x :: B) :
    Outcome.Returns (fun fuel => t.rbtreeNext fuel (some x)) B.head? ∧
      Outcome.Returns (fun fuel => t.rbtreePrev fuel (some x)) A.getLast? :=
  ⟨⟨T.toList.length, fun _ hfuel => (h.next_prev hx hfuel).1⟩,
    T.toList.length, fun _ hfuel => (h.next_prev hx hfuel).2⟩

theorem Repr.next_iff {t : Rbtree α} {T : CTree α} {x y : α} (h : t.Repr T) (hx : x ∈ T.toList) :
    Outcome.Returns (fun fuel => t.rbtreeNext fuel (some x)) (some y) ↔
      ∃ A B, T.toList = A ++ x :: y :: B := by
  constructor
  · intro hret
    obtain ⟨A, B, hcut⟩ := List.append_of_mem hx
    obtain ⟨B', rfl⟩ := List.head?_eq_some_iff.mp ((h.returns_next_prev hcut).1.unique hret)
    exact ⟨A, B', hcut⟩
  · rintro ⟨A, B, hcut⟩
    exact (h.returns_next_prev hcut).1

theorem Repr.prev_iff {t : Rbtree α} {T : CTree α} {x y : α} (h : t.Repr T) (hy : y ∈ T.toList) :
    Outcome.Returns (fun fuel => t.rbtreePrev fuel (some y)) (some x) ↔
      ∃ A B, T.toList = A ++ x :: y :: B := by
  constructor
  · intro hret
    obtain ⟨A, B, hcut⟩ := List.append_of_mem hy
    obtain ⟨A', rfl⟩ := List.getLast?_eq_some_iff.mp ((h.returns_next_prev hcut).2.unique hret)
    exact ⟨A', B, by rw [hcut, List.append_assoc]; rfl⟩
  · rintro ⟨A, B, hcut⟩
    have hcut' : T.toList = (A ++ [x]) ++ y :: B := by
      rw [hcut]
      simp
    have hret := (h.returns_next_prev hcut').2
    rwa [List.getLast?_concat] at hret

theorem Repr.next_none_iff {t : Rbtree α} {T : CTree α} {x : α} (h : t.Repr T) (hx : x ∈ T.toList) :
    Outcome.Returns (fun fuel => t.rbtreeNext fuel (some x)) none ↔ T.toList.getLast? = some x := by
  rw [List.getLast?_eq_some_iff]
  constructor
  · intro hret
    obtain ⟨A, B, hcut⟩ := List.append_of_mem hx
    obtain rfl := List.head?_eq_none_iff.mp ((h.returns_next_prev hcut).1.unique hret)
    exact ⟨A, hcut⟩
  · rintro ⟨A, hcut⟩
    exact (h.returns_next_prev hcut).1

theorem Repr.prev_none_iff {t : Rbtree α} {T : CTree α} {x : α} (h : t.Repr T) (hx : x ∈ T.toList) :
    Outcome.Returns (fun fuel => t.rbtreePrev fuel (some x)) none ↔ T.toList.head? = some x := by
  rw [List.head?_eq_some_iff]
  constructor
  · intro hret
    obtain ⟨A, B, hcut⟩ := List.append_of_mem hx
    obtain rfl := List.getLast?_eq_none_iff.mp ((h.returns_next_prev hcut).2.unique hret)
    exact ⟨B, hcut⟩
  · rintro ⟨B, hcut⟩
    exact (h.returns_next_prev (A := []) hcut).2

/-- **Iteration.**  On every tree with consistent links: `rbtree_next` returns the node that stands behind
the node in the in-order sequence, and `NULL` for the last one only; `rbtree_prev` returns the node that
stands before it, and `NULL` for the first one only; each takes back the other; and an iteration from
`rbtree_first` visits the nodes in order, each of them once, and ends at `rbtree_last`. -/
theorem rbtree_iteration {t : Rbtree α} {T : CTree α} (h : t.Repr T) :
    (∀ A x B, T.toList = A ++ x :: B →
      Outcome.Returns (fun fuel => t.rbtreeNext fuel (some x)) B.head? ∧
      Outcome.Returns (fun fuel => t.rbtreePrev fuel (some x)) A.getLast?) ∧
    (∀ x ∈ T.toList,
      (Outcome.Returns (fun fuel => t.rbtreeNext fuel (some x)) none ↔ T.toList.getLast? = some x) ∧
      (Outcome.Returns (fun fuel => t.rbtreePrev fuel (some x)) none ↔ T.toList.head? = some x)) ∧
    (∀ x ∈ T.toList, ∀ y ∈ T.toList,
      Outcome.Returns (fun fuel => t.rbtreeNext fuel (some x)) (some y) ↔
        Outcome.Returns (fun fuel => t.rbtreePrev fuel (some y)) (some x)) ∧
    (T.toList ≠ [] → T.toList.Nodup ∧ Outcome.Returns t.iterate T.toList ∧
      ∃ x y, Outcome.Returns (fun fuel => t.rbtreeFirst fuel t.root) x ∧
        Outcome.Returns (fun fuel => t.rbtreeLast fuel t.root) y ∧ T.toList.head? = some x ∧
        T.toList.getLast? = some y) := by
  refine ⟨fun A x B hx => h.returns_next_prev hx,
    fun x hx => ⟨h.next_none_iff hx, h.prev_none_iff hx⟩,
    fun x hx y hy => (h.next_iff hx).trans (h.prev_iff hy).symm, fun hne => ?_⟩
  obtain ⟨x, y, -, -, hx, hy⟩ := h.first_last hne le_rfl
  refine ⟨h.nodup, ⟨T.toList.length, fun _ hfuel => h.iterate hne hfuel⟩, x, y,
    ⟨T.toList.length, fun fuel hfuel => ?_⟩, ⟨T.toList.length, fun fuel hfuel => ?_⟩, hx, hy⟩
  · obtain ⟨x', y', hfirst, -, hx', -⟩ := h.first_last hne hfuel
    obtain rfl : x' = x := Option.some.inj (hx'.symm.trans hx)
    exact hfirst
  · obtain ⟨x', y', -, hlast, -, hy'⟩ := h.first_last hne hfuel
    obtain rfl : y' = y := Option.some.inj (hy'.symm.trans hy)
    exact hlast

/-- The tree of the nodes 3 and 5. -/
theorem rbtree_iteration_twoNodes :
    Outcome.Returns (fun fuel => twoNodes.rbtreeNext fuel (some 3)) (some 5) ∧
      Outcome.Returns (fun fuel => twoNodes.rbtreePrev fuel (some 5)) (some 3) ∧
      Outcome.Returns twoNodes.iterate [3, 5] := by
  obtain ⟨hcut, -, -, hiter⟩ := rbtree_iteration twoNodes_repr
  exact ⟨(hcut [] 3 [5] rfl).1, (hcut [3] 5 [] rfl).2, (hiter (by decide)).2.1⟩

end Rbtree

end Kalisto
