import Kalisto.Adt.RbtreeDelete

/-!
# The red-black tree as an ordered map

The nodes of the tree lie in records that have a key; `rbtree_find` calls a `compare` callback on the
record and walks left or right.  The state is the tree with the keys of all records, those of the
tree and all others; the map it stands for gives for each key the node that was inserted with it.

An insertion sets the key of the record, walks down as `rbtree_find` does and calls `rbtree_insert` at
the `NULL` link where the walk falls off.

* `Reachable.stores` — over every run of insertions and deletions the nodes are linked as a red-black
  tree in the order of the keys, and hold the map;
* `rbtree_ordered_map` — every search ends with the node of the map and visits at most
  `2 log₂ (n + 1)` nodes.
-/

namespace Kalisto

variable {α κ : Type}

namespace Rbtree

/-! ### The code -/

/-- The loop of `rbtree_find` from `root` on: what it returns, and the nodes it visits. -/
def findFrom (t : Rbtree α) (compare : α → κ → ℤ) (data : κ) :
    ℕ → Option α → Outcome Fault (Option α × List α)
  | 0, _ => .timeout
  | _ + 1, none => .ok (none, [])
  | fuel + 1, some x =>
    if compare x data < 0 then do
      let (r, visited) ← t.findFrom compare data fuel (t.node x).left
      return (r, x :: visited)
    else if compare x data > 0 then do
      let (r, visited) ← t.findFrom compare data fuel (t.node x).right
      return (r, x :: visited)
    else .ok (some x, [x])

/-- `rbtree_find (tree->root, compare, data)`, with the nodes it visits. -/
def rbtreeFind (t : Rbtree α) (compare : α → κ → ℤ) (data : κ) (fuel : ℕ) :
    Outcome Fault (Option α × List α) :=
  t.findFrom compare data fuel t.root

/-- The same walk as a caller of `rbtree_insert` makes it, with the link that was followed last and
the node it belongs to: the node with the key, or the `NULL` link where the walk falls off. -/
def descendFrom (t : Rbtree α) (compare : α → κ → ℤ) (data : κ) :
    ℕ → Option α → ChildLink α → Option α → Outcome Fault (α ⊕ Option α × ChildLink α)
  | 0, _, _, _ => .timeout
  | _ + 1, parent, clinkp, none => .ok (.inr (parent, clinkp))
  | fuel + 1, _, _, some x =>
    if compare x data < 0 then t.descendFrom compare data fuel (some x) (.left x) (t.node x).left
    else if compare x data > 0 then
      t.descendFrom compare data fuel (some x) (.right x) (t.node x).right
    else .ok (.inl x)

end Rbtree

/-- The tree and the keys of the records. -/
structure KeyedTree (α κ : Type) where
  tree : Rbtree α
  key : α → κ

namespace KeyedTree

/-- The `compare` callback: it compares the key in the record of the node with the key it is given. -/
def compareNode (s : KeyedTree α κ) (compare : κ → κ → ℤ) (x : α) (data : κ) : ℤ :=
  compare (s.key x) data

/-- A search. -/
def find (s : KeyedTree α κ) (compare : κ → κ → ℤ) (data : κ) (fuel : ℕ) :
    Outcome Fault (Option α × List α) :=
  s.tree.rbtreeFind (s.compareNode compare) data fuel

variable [DecidableEq α]

/-- The record of `x` gets the key and goes into the tree, unless the key is there already. -/
def insert (s : KeyedTree α κ) (compare : κ → κ → ℤ) (x : α) (k : κ) (fuel : ℕ) :
    Outcome Fault (KeyedTree α κ) := do
  let s : KeyedTree α κ := { s with key := Function.update s.key x k }
  match ← s.tree.descendFrom (s.compareNode compare) k fuel none .root s.tree.root with
  | .inl _ => return s
  | .inr (parent, clinkp) =>
    let t ← s.tree.rbtreeInsert fuel (some x) parent (some clinkp)
    return { s with tree := t }

/-- The node is deleted. -/
def delete (s : KeyedTree α κ) (x : α) (fuel : ℕ) : Outcome Fault (KeyedTree α κ) := do
  let t ← s.tree.rbtreeDelete fuel (some x)
  return { s with tree := t }

/-! ### What the tree stands for -/

/-- `compare` is right for the order of the keys: it is negative when the given key is smaller than
the one in the node, and positive when it is larger. -/
structure Compares [LinearOrder κ] (compare : κ → κ → ℤ) : Prop where
  neg : ∀ k d, compare k d < 0 ↔ d < k
  pos : ∀ k d, compare k d > 0 ↔ k < d

/-- The runs, with the map from keys to nodes.  The nodes of other records, and their keys, are any
memory and may change at any time. -/
inductive Reachable [DecidableEq κ] (compare : κ → κ → ℤ) :
    KeyedTree α κ → (κ → Option α) → Prop
  | init {s : KeyedTree α κ} (h : s.tree.root = none) : Reachable compare s fun _ => none
  | outside {s s' : KeyedTree α κ} {M : κ → Option α} : Reachable compare s M →
      s'.tree.root = s.tree.root →
      (∀ k x, M k = some x → s'.tree.node x = s.tree.node x ∧ s'.key x = s.key x) →
      Reachable compare s' M
  | insert {s s' : KeyedTree α κ} {M : κ → Option α} {x : α} {k : κ} : Reachable compare s M →
      M k = none → (∀ k', M k' ≠ some x) → Outcome.Returns (s.insert compare x k) s' →
      Reachable compare s' (Function.update M k (some x))
  | delete {s s' : KeyedTree α κ} {M : κ → Option α} {x : α} {k : κ} : Reachable compare s M →
      M k = some x → Outcome.Returns (s.delete x) s' →
      Reachable compare s' (Function.update M k none)

/-- **The tree holds the map**: the nodes are linked as the red-black tree `T`, in the order of their
keys, and the map gives for each key the node of the tree with that key. -/
structure Stores [LinearOrder κ] (s : KeyedTree α κ) (M : κ → Option α) (T : CTree α) : Prop where
  repr : s.tree.Repr T
  redBlack : T.RedBlack
  sorted : T.toList.Pairwise fun x y => s.key x < s.key y
  holds : ∀ k x, M k = some x ↔ x ∈ T.toList ∧ s.key x = k

variable [LinearOrder κ] {compare : κ → κ → ℤ}

/-! ### Searching -/

omit [DecidableEq α] in
/-- **A search** of a subtree ends, visits at most one node for each level, and finds exactly the node
with the key. -/
theorem findFrom_spec (hcmp : Compares compare) (s : KeyedTree α κ) (data : κ) {T : CTree α}
    {p : Option α} (hrep : Rbtree.Rep s.tree.node p T)
    (hsort : T.toList.Pairwise fun x y => s.key x < s.key y) :
    ∃ r visited, (∀ fuel, T.height < fuel →
        s.tree.findFrom (s.compareNode compare) data fuel T.root = .ok (r, visited)) ∧
      visited.length ≤ T.height ∧ ∀ x, r = some x ↔ x ∈ T.toList ∧ s.key x = data := by
  induction T generalizing p with
  | nil =>
    refine ⟨none, [], fun fuel hfuel => ?_, le_refl 0, by simp [CTree.toList]⟩
    obtain ⟨fuel, rfl⟩ : ∃ n, fuel = n + 1 := ⟨fuel - 1, by omega⟩
    rfl
  | node c l x r ihl ihr =>
    obtain ⟨hx, hl, hr⟩ := hrep
    simp only [CTree.toList, List.pairwise_append, List.pairwise_cons, List.mem_cons] at hsort
    obtain ⟨hsl, ⟨hxr, hsr⟩, hlr⟩ := hsort
    simp only [CTree.toList, List.mem_append, List.mem_cons, CTree.height]
    rcases lt_trichotomy data (s.key x) with hlt | heq | hgt
    · -- the key is smaller: only the left subtree can have it
      obtain ⟨a, visited, hrun, hlen, hfound⟩ := ihl hl hsl
      refine ⟨a, x :: visited, fun fuel hfuel => ?_, by simp only [List.length_cons]; omega, ?_⟩
      · obtain ⟨fuel, rfl⟩ : ∃ n, fuel = n + 1 := ⟨fuel - 1, by omega⟩
        have hneg : s.compareNode compare x data < 0 := (hcmp.neg _ _).mpr hlt
        simp only [CTree.root_node, Rbtree.findFrom, if_pos hneg, hx, hrun fuel (by omega),
          Outcome.ok_bind, Outcome.pure_eq]
      · intro y
        rw [hfound y]
        constructor
        · exact fun hy => ⟨Or.inl hy.1, hy.2⟩
        · rintro ⟨hy | rfl | hy, hk⟩
          · exact ⟨hy, hk⟩
          · exact absurd hk.symm hlt.ne
          · exact absurd (hlt.trans (hxr y hy)) (by simp [hk])
    · refine ⟨some x, [x], fun fuel hfuel => ?_, by simp, ?_⟩
      · obtain ⟨fuel, rfl⟩ : ∃ n, fuel = n + 1 := ⟨fuel - 1, by omega⟩
        have hneg : ¬ s.compareNode compare x data < 0 := by
          rw [compareNode, hcmp.neg, heq]
          exact lt_irrefl _
        have hpos : ¬ s.compareNode compare x data > 0 := by
          rw [compareNode, hcmp.pos, heq]
          exact lt_irrefl _
        simp only [CTree.root_node, Rbtree.findFrom, if_neg hneg, if_neg hpos]
      · intro y
        simp only [Option.some.injEq]
        constructor
        · rintro rfl
          exact ⟨Or.inr (Or.inl rfl), heq.symm⟩
        · rintro ⟨hy | rfl | hy, hk⟩
          · exact absurd (hlr y hy x (Or.inl rfl)) (by simp [hk, heq])
          · rfl
          · exact absurd (hxr y hy) (by simp [hk, heq])
    · -- the key is larger: only the right subtree can have it
      obtain ⟨a, visited, hrun, hlen, hfound⟩ := ihr hr hsr
      refine ⟨a, x :: visited, fun fuel hfuel => ?_, by simp only [List.length_cons]; omega, ?_⟩
      · obtain ⟨fuel, rfl⟩ : ∃ n, fuel = n + 1 := ⟨fuel - 1, by omega⟩
        have hneg : ¬ s.compareNode compare x data < 0 := by
          rw [compareNode, hcmp.neg]
          exact hgt.not_gt
        have hpos : s.compareNode compare x data > 0 := (hcmp.pos _ _).mpr hgt
        simp only [CTree.root_node, Rbtree.findFrom, if_neg hneg, if_pos hpos, hx, hrun fuel (by omega),
          Outcome.ok_bind, Outcome.pure_eq]
      · intro y
        rw [hfound y]
        constructor
        · exact fun hy => ⟨Or.inr (Or.inr hy.1), hy.2⟩
        · rintro ⟨hy | rfl | hy, hk⟩
          · exact absurd ((hlr y hy x (Or.inl rfl)).trans hgt) (by simp [hk])
          · exact absurd hk hgt.ne
          · exact ⟨hy, hk⟩

omit [DecidableEq α] in
/-- **The walk of an insertion.**  With the keys before the position smaller and those after it larger,
the walk through the subtree ends at an open link of the tree, with the same of its position. -/
theorem descendFrom_spec (hcmp : Compares compare) (s : KeyedTree α κ) (data : κ) {T : CTree α}
    {k : Ctx α} (hrep : Rbtree.Rep s.tree.node (Ctx.above k) T)
    (hsort : T.toList.Pairwise fun x y => s.key x < s.key y) (hnew : ∀ x ∈ T.toList, s.key x ≠ data)
    (hbefore : ∀ x ∈ Ctx.before k, s.key x < data) (hafter : ∀ x ∈ Ctx.after k, data < s.key x) :
    ∃ k', Ctx.plug k' .nil = Ctx.plug k T ∧
      (∀ x ∈ Ctx.before k', s.key x < data) ∧ (∀ x ∈ Ctx.after k', data < s.key x) ∧
      ∀ fuel, T.height < fuel → s.tree.descendFrom (s.compareNode compare) data fuel (Ctx.above k)
        (Rbtree.linkOf k) T.root = .ok (.inr (Ctx.above k', Rbtree.linkOf k')) := by
  induction T generalizing k with
  | nil =>
    refine ⟨k, rfl, hbefore, hafter, fun fuel hfuel => ?_⟩
    obtain ⟨fuel, rfl⟩ : ∃ n, fuel = n + 1 := ⟨fuel - 1, by omega⟩
    rfl
  | node c l x r ihl ihr =>
    obtain ⟨hx, hl, hr⟩ := hrep
    simp only [CTree.toList, List.pairwise_append, List.pairwise_cons, List.mem_cons] at hsort
    obtain ⟨hsl, ⟨hxr, hsr⟩, hlr⟩ := hsort
    simp only [CTree.toList, List.mem_append, List.mem_cons] at hnew
    rcases lt_or_gt_of_ne (hnew x (Or.inr (Or.inl rfl))) with hgt | hlt
    · have hbefore' : ∀ y ∈ Ctx.before (⟨.right, c, x, l⟩ :: k), s.key y < data := by
        intro y hy
        simp only [Ctx.before, Frame.before, List.mem_append, List.mem_singleton] at hy
        rcases hy with hy | hy | rfl
        · exact hbefore y hy
        · exact (hlr y hy x (Or.inl rfl)).trans hgt
        · exact hgt
      obtain ⟨k', hplug, hb, ha, hrun⟩ := ihr (k := ⟨.right, c, x, l⟩ :: k) hr hsr
        (fun y hy => hnew y (Or.inr (Or.inr hy))) hbefore' (by simpa [Ctx.after, Frame.after] using hafter)
      refine ⟨k', hplug, hb, ha, fun fuel hfuel => ?_⟩
      obtain ⟨fuel, rfl⟩ : ∃ n, fuel = n + 1 := ⟨fuel - 1, by omega⟩
      have hneg : ¬ s.compareNode compare x data < 0 := by
        rw [compareNode, hcmp.neg]
        exact hgt.not_gt
      have hpos : s.compareNode compare x data > 0 := (hcmp.pos _ _).mpr hgt
      simp only [CTree.height] at hfuel
      simp only [CTree.root_node, Rbtree.descendFrom, if_neg hneg, if_pos hpos, hx]
      exact hrun fuel (by omega)
    · have hafter' : ∀ y ∈ Ctx.after (⟨.left, c, x, r⟩ :: k), data < s.key y := by
        intro y hy
        simp only [Ctx.after, Frame.after, List.mem_append, List.mem_cons] at hy
        rcases hy with (rfl | hy) | hy
        · exact hlt
        · exact lt_trans hlt (hxr y hy)
        · exact hafter y hy
      obtain ⟨k', hplug, hb, ha, hrun⟩ := ihl (k := ⟨.left, c, x, r⟩ :: k) hl hsl
        (fun y hy => hnew y (Or.inl hy)) (by simpa [Ctx.before, Frame.before] using hbefore) hafter'
      refine ⟨k', hplug, hb, ha, fun fuel hfuel => ?_⟩
      obtain ⟨fuel, rfl⟩ : ∃ n, fuel = n + 1 := ⟨fuel - 1, by omega⟩
      have hneg : s.compareNode compare x data < 0 := (hcmp.neg _ _).mpr hlt
      simp only [CTree.height] at hfuel
      simp only [CTree.root_node, Rbtree.descendFrom, if_pos hneg, hx]
      exact hrun fuel (by omega)

/-! ### The steps -/

theorem rbtreeInsert_steady (t : Rbtree α) (node parent : Option α)
    (clinkp : Option (ChildLink α)) :
    Outcome.Steady fun fuel => t.rbtreeInsert fuel node parent clinkp := by
  refine (Outcome.steady_const _).bind fun _ => (Outcome.steady_const _).bind fun _ => ?_
  refine (Outcome.steady_const _).bind fun link => (Outcome.steady_const _).bind fun x => ?_
  exact (Outcome.steady_loop _ _).bind fun t' => Outcome.steady_const _

theorem rbtreeDelete_steady (t : Rbtree α) (node : Option α) :
    Outcome.Steady fun fuel => t.rbtreeDelete fuel node := by
  have hunlink : ∀ x, Outcome.Steady fun fuel => t.unlink fuel x := by
    intro x
    refine Outcome.Steady.ite (Outcome.steady_const _) (Outcome.Steady.bind ?_ fun y => ?_)
    · refine (Outcome.steady_const _).bind fun _ => (Outcome.steady_const _).bind fun root => ?_
      exact Outcome.steady_loop _ _
    · exact Outcome.steady_const _
  refine (Outcome.steady_const _).bind fun _ => (Outcome.steady_const _).bind fun x => ?_
  refine (hunlink x).bind fun r => Outcome.Steady.ite ?_ (Outcome.steady_const _)
  exact (Outcome.steady_loop _ _).bind fun r' => Outcome.steady_const _

namespace Stores

variable {s s' : KeyedTree α κ} {M : κ → Option α} {T : CTree α} {x : α} {k : κ}

omit [DecidableEq α] in
/-- Only the root pointer, the nodes of the tree and their keys matter. -/
theorem congr (hst : Stores s M T) (hroot : s'.tree.root = s.tree.root)
    (hsame : ∀ x ∈ T.toList, s'.tree.node x = s.tree.node x ∧ s'.key x = s.key x) :
    Stores s' M T := by
  constructor
  · exact ⟨hroot.trans hst.repr.root, hst.repr.rep.congr fun x hx => (hsame x hx).1, hst.repr.nodup⟩
  · exact hst.redBlack
  · refine hst.sorted.imp_of_mem fun {a b} ha hb hab => ?_
    rw [(hsame a ha).2, (hsame b hb).2]
    exact hab
  · intro k x
    rw [hst.holds]
    refine and_congr_right fun hx => ?_
    rw [(hsame x hx).2]

omit [DecidableEq α] in
theorem not_mem (hst : Stores s M T) (hx : ∀ k', M k' ≠ some x) : x ∉ T.toList :=
  fun hmem => hx (s.key x) ((hst.holds _ _).mpr ⟨hmem, rfl⟩)

/-- **Insertion** of a node with a new key. -/
theorem insert (hcmp : Compares compare) (hst : Stores s M T) (hk : M k = none)
    (hx : ∀ k', M k' ≠ some x) :
    ∃ s' T', Outcome.Returns (s.insert compare x k) s' ∧
      Stores s' (Function.update M k (some x)) T' := by
  have hxT := hst.not_mem hx
  let s₁ : KeyedTree α κ := { s with key := Function.update s.key x k }
  have hst₁ : Stores s₁ M T := hst.congr rfl fun y hy =>
    ⟨rfl, Function.update_of_ne (ne_of_mem_of_not_mem hy hxT) k s.key⟩
  have hnew : ∀ y ∈ T.toList, s₁.key y ≠ k := by
    intro y hy hkey
    have := (hst₁.holds k y).mpr ⟨hy, hkey⟩
    simp [hk] at this
  obtain ⟨c, hplug, hbefore, hafter, hwalk⟩ := descendFrom_spec hcmp s₁ k (T := T) (k := [])
    hst₁.repr.rep hst₁.sorted hnew (by simp [Ctx.before]) (by simp [Ctx.after])
  simp only [Ctx.plug] at hplug
  subst hplug
  obtain ⟨t', ⟨n, hn⟩, T', hrepr, hrb, hlist⟩ :=
    (rbtreeInsert_steady s₁.tree (some x) (Ctx.above c) (some (Rbtree.linkOf c))).returns
      (hst₁.repr.rbtreeInsert hst₁.redBlack hxT (Nat.lt_succ_self _))
  refine ⟨⟨t', s₁.key⟩, T', ⟨max n ((Ctx.plug c .nil).height + 1), fun fuel hfuel => ?_⟩, ?_⟩
  · have hdescend := hwalk fuel (by omega)
    rw [← hst₁.repr.root] at hdescend
    have hrun := hn fuel (by omega)
    simp only [s₁] at hdescend hrun
    simp only [KeyedTree.insert]
    rw [show (none : Option α) = Ctx.above [] from rfl,
      show ChildLink.root = Rbtree.linkOf ([] : Ctx α) from rfl, hdescend]
    simp only [Outcome.ok_bind, hrun, Outcome.pure_eq]
    rfl
  · have hsplit : (Ctx.plug c .nil).toList = Ctx.before c ++ Ctx.after c := by
      simp [Ctx.toList_plug, CTree.toList]
    have hkx : s₁.key x = k := Function.update_self x k s.key
    refine ⟨hrepr, hrb, ?_, ?_⟩
    · have hsort := hst₁.sorted
      rw [hsplit, List.pairwise_append] at hsort
      rw [hlist]
      simp only [List.pairwise_append, List.pairwise_cons, List.mem_cons]
      refine ⟨hsort.1, ⟨fun y hy => hkx ▸ hafter y hy, hsort.2.1⟩, ?_⟩
      rintro a ha b (rfl | hb)
      · exact hkx ▸ hbefore a ha
      · exact hsort.2.2 a ha b hb
    · intro k' y
      have hold := hst₁.holds k' y
      rw [hsplit, List.mem_append] at hold
      simp only [hlist, List.mem_append, List.mem_cons]
      by_cases hkk : k' = k
      · subst hkk
        simp only [Function.update_self, Option.some.injEq]
        constructor
        · rintro rfl
          exact ⟨Or.inr (Or.inl rfl), hkx⟩
        · rintro ⟨hy, hkey⟩
          by_contra hne
          have hy' : y ∈ Ctx.before c ∨ y ∈ Ctx.after c := by tauto
          exact absurd (hold.mpr ⟨hy', hkey⟩) (by simp [hk])
      · rw [Function.update_of_ne hkk, hold]
        constructor
        · exact fun h => ⟨by tauto, h.2⟩
        · rintro ⟨hy | rfl | hy, hkey⟩
          · exact ⟨Or.inl hy, hkey⟩
          · exact absurd (hkey.symm.trans hkx) hkk
          · exact ⟨Or.inr hy, hkey⟩

/-- **Deletion** of the node with a key. -/
theorem delete (hst : Stores s M T) (hk : M k = some x) :
    ∃ s' T', Outcome.Returns (s.delete x) s' ∧ Stores s' (Function.update M k none) T' := by
  obtain ⟨hx, hkey⟩ := (hst.holds k x).mp hk
  obtain ⟨c, d, l, r, rfl⟩ := Ctx.exists_plug hx
  obtain ⟨t', ⟨n, hn⟩, hrepr⟩ := (rbtreeDelete_steady s.tree (some x)).returns
    (hst.repr.rbtreeDelete hst.redBlack (Nat.lt_succ_self _))
  have hlist := Rbtree.toList_removeAt_erase hst.repr.nodup
  refine ⟨⟨t', s.key⟩, _, ⟨n, fun fuel hfuel => ?_⟩, hrepr, Ctx.redBlack_removeAt hst.redBlack, ?_, ?_⟩
  · simp only [KeyedTree.delete, hn fuel hfuel, Outcome.ok_bind, Outcome.pure_eq]
  · rw [hlist]
    exact hst.sorted.sublist List.erase_sublist
  · intro k' y
    rw [hlist, hst.repr.nodup.mem_erase_iff]
    by_cases hkk : k' = k
    · subst hkk
      simp only [Function.update_self, reduceCtorEq, false_iff, not_and]
      rintro ⟨hne, hy⟩ hkey'
      have := (hst.holds k' y).mpr ⟨hy, hkey'⟩
      rw [hk, Option.some.injEq] at this
      exact hne this.symm
    · rw [Function.update_of_ne hkk, hst.holds]
      constructor
      · rintro ⟨hy, rfl⟩
        refine ⟨⟨?_, hy⟩, rfl⟩
        rintro rfl
        exact hkk hkey
      · rintro ⟨⟨-, hy⟩, hkey'⟩
        exact ⟨hy, hkey'⟩

omit [DecidableEq α] in
/-- **A search.** -/
theorem find (hcmp : Compares compare) (hst : Stores s M T) (k : κ) :
    ∃ visited, Outcome.Returns (s.find compare k) (M k, visited) ∧ visited.length ≤ T.height := by
  obtain ⟨r, visited, hrun, hlen, hfound⟩ := findFrom_spec hcmp s k hst.repr.rep hst.sorted
  have hr : r = M k := by
    refine Option.ext fun x => ?_
    rw [hfound, hst.holds]
  refine ⟨visited, ⟨T.height + 1, fun fuel hfuel => ?_⟩, hlen⟩
  rw [KeyedTree.find, Rbtree.rbtreeFind, hst.repr.root, hrun fuel (by omega), hr]

omit [DecidableEq α] in
/-- The nodes of the map are the nodes of the tree. -/
theorem ncard (hst : Stores s M T) : {x | ∃ k, M k = some x}.ncard = T.toList.length := by
  classical
  have hset : {x | ∃ k, M k = some x} = (T.toList.toFinset : Set α) := by
    ext x
    simp only [Set.mem_ofPred_eq, hst.holds, List.coe_toFinset]
    exact ⟨fun ⟨k, hx, _⟩ => hx, fun hx => ⟨_, hx, rfl⟩⟩
  rw [hset, Set.ncard_coe_finset, List.toFinset_card_of_nodup hst.repr.nodup]

end Stores

/-! ### Runs -/

/-- **Over every run** the nodes are linked as a red-black tree in the order of the keys. -/
theorem Reachable.stores (hcmp : Compares compare) {s : KeyedTree α κ} {M : κ → Option α}
    (hreach : Reachable compare s M) : ∃ T, Stores s M T := by
  induction hreach with
  | init h =>
    refine ⟨.nil, ⟨h, trivial, List.nodup_nil⟩, ⟨rfl, trivial, 0, by simp⟩, List.Pairwise.nil, ?_⟩
    simp [CTree.toList]
  | outside _ hroot hsame ih =>
    obtain ⟨T, hst⟩ := ih
    exact ⟨T, hst.congr hroot fun x hx => hsame _ x ((hst.holds _ x).mpr ⟨hx, rfl⟩)⟩
  | insert _ hk hx hrun ih =>
    obtain ⟨T, hst⟩ := ih
    obtain ⟨s₁, T', hrun₁, hst'⟩ := hst.insert hcmp hk hx
    obtain rfl := hrun.unique hrun₁
    exact ⟨T', hst'⟩
  | delete _ hk hrun ih =>
    obtain ⟨T, hst⟩ := ih
    obtain ⟨s₁, T', hrun₁, hst'⟩ := hst.delete hk
    obtain rfl := hrun.unique hrun₁
    exact ⟨T', hst'⟩

/-- **The red-black tree is an ordered map with logarithmic depth.**  After every run of insertions
and deletions, every search returns the node of the map, or `NULL` when there is none, and visits at
most `2 log₂ (n + 1)` nodes of the `n` in the tree; and every further insertion of a new key and every
further deletion ends without a fault. -/
theorem rbtree_ordered_map (hcmp : Compares compare) {s : KeyedTree α κ} {M : κ → Option α}
    (hreach : Reachable compare s M) :
    (∀ k, ∃ visited, Outcome.Returns (s.find compare k) (M k, visited) ∧
      (visited.length : ℝ) ≤ 2 * Real.logb 2 ({x | ∃ k, M k = some x}.ncard + 1)) ∧
    (∀ x k, M k = none → (∀ k', M k' ≠ some x) →
      ∃ s', Outcome.Returns (s.insert compare x k) s' ∧
        Reachable compare s' (Function.update M k (some x))) ∧
    ∀ x k, M k = some x →
      ∃ s', Outcome.Returns (s.delete x) s' ∧ Reachable compare s' (Function.update M k none) := by
  obtain ⟨T, hst⟩ := hreach.stores hcmp
  refine ⟨fun k => ?_, fun x k hk hx => ?_, fun x k hk => ?_⟩
  · obtain ⟨visited, hrun, hlen⟩ := hst.find hcmp k
    refine ⟨visited, hrun, ?_⟩
    rw [hst.ncard]
    exact le_trans (by exact_mod_cast hlen) hst.redBlack.height_le
  · obtain ⟨s', -, hrun, -⟩ := hst.insert hcmp hk hx
    exact ⟨s', hrun, hreach.insert hk hx hrun⟩
  · obtain ⟨s', -, hrun, -⟩ := hst.delete hk
    exact ⟨s', hrun, hreach.delete hk hrun⟩

/-- A comparison of numbers. -/
def compareNat (k d : ℕ) : ℤ := if d < k then -1 else if k < d then 1 else 0

theorem compareNat_compares : Compares compareNat := by
  constructor <;> intro k d <;> simp only [compareNat] <;> split_ifs <;> simp <;> omega

/-- The map after four insertions and the deletion of the key 2. -/
def fourKeys : ℕ → Option ℕ :=
  Function.update (Function.update (Function.update (Function.update (Function.update (fun _ => none)
    2 (some 12)) 1 (some 11)) 3 (some 13)) 4 (some 14)) 2 none

theorem fourKeys_ncard : {x | ∃ k, fourKeys k = some x}.ncard = 3 := by
  have hset : {x | ∃ k, fourKeys k = some x} = ((({11, 13, 14} : Finset ℕ)) : Set ℕ) := by
    ext x
    simp only [Set.mem_ofPred_eq, fourKeys, Function.update_apply, Finset.coe_insert, Finset.coe_singleton,
      Set.mem_insert_iff, Set.mem_singleton_iff]
    constructor
    · rintro ⟨k, hk⟩
      split_ifs at hk <;> simp_all
    · rintro (rfl | rfl | rfl)
      · exact ⟨1, by simp⟩
      · exact ⟨3, by simp⟩
      · exact ⟨4, by simp⟩
  rw [hset, Set.ncard_coe_finset]
  rfl

/-- **Four insertions and a deletion.**  A search finds the node 13 with the key 3, and one for the deleted
key finds nothing; each visits at most four nodes. -/
theorem rbtree_ordered_map_fourKeys : ∃ (s : KeyedTree ℕ ℕ) (visited missed : List ℕ),
    Reachable compareNat s fourKeys ∧
      Outcome.Returns (s.find compareNat 3) (some 13, visited) ∧ visited.length ≤ 4 ∧
      Outcome.Returns (s.find compareNat 2) (none, missed) ∧ missed.length ≤ 4 := by
  have h₀ : Reachable compareNat ⟨⟨none, fun _ => ⟨.black, none, none, none⟩⟩, fun _ => 0⟩
      (fun _ => (none : Option ℕ)) := Reachable.init rfl
  have hfresh : ∀ {M : ℕ → Option ℕ} {k x y : ℕ}, (∀ k', M k' ≠ some y) → x ≠ y →
      ∀ k', Function.update M k (some x) k' ≠ some y := by
    intro M k x y hM hne k'
    rw [Function.update_apply]
    split
    · simpa using hne
    · exact hM k'
  obtain ⟨s₁, -, h₁⟩ := (rbtree_ordered_map compareNat_compares h₀).2.1 12 2 rfl (by simp)
  obtain ⟨s₂, -, h₂⟩ := (rbtree_ordered_map compareNat_compares h₁).2.1 11 1 rfl
    (hfresh (by simp) (by decide))
  obtain ⟨s₃, -, h₃⟩ := (rbtree_ordered_map compareNat_compares h₂).2.1 13 3 rfl
    (hfresh (hfresh (by simp) (by decide)) (by decide))
  obtain ⟨s₄, -, h₄⟩ := (rbtree_ordered_map compareNat_compares h₃).2.1 14 4 rfl
    (hfresh (hfresh (hfresh (by simp) (by decide)) (by decide)) (by decide))
  obtain ⟨s, -, h⟩ := (rbtree_ordered_map compareNat_compares h₄).2.2 12 2 rfl
  have h : Reachable compareNat s fourKeys := h
  -- with three nodes the bound is `2 log₂ 4`
  have hbound : ∀ k, ∃ visited, Outcome.Returns (s.find compareNat k) (fourKeys k, visited) ∧
      visited.length ≤ 4 := by
    intro k
    obtain ⟨visited, hrun, hlen⟩ := (rbtree_ordered_map compareNat_compares h).1 k
    refine ⟨visited, hrun, ?_⟩
    have hlog : Real.logb 2 ((3 : ℕ) + 1) = 2 := by
      rw [show ((3 : ℕ) + 1 : ℝ) = 2 ^ (2 : ℝ) by norm_num, Real.logb_rpow] <;> norm_num
    rw [fourKeys_ncard, hlog] at hlen
    exact_mod_cast (by linarith : (visited.length : ℝ) ≤ 4)
  obtain ⟨visited, hfound, hvisited⟩ := hbound 3
  obtain ⟨missed, hmiss, hmissed⟩ := hbound 2
  exact ⟨s, visited, missed, h, hfound, hvisited, hmiss, hmissed⟩

end KeyedTree

end Kalisto
