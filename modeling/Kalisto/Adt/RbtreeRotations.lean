import Kalisto.Adt.RbtreeDelete

/-!
# The number of rotations

* `rbtree_rotations` — what `rbtree_insert` does to the links, beyond hanging the node below its parent,
  is at most two rotations, and what `rbtree_delete` does beyond unlinking is at most three.

Both loops climb the tree while they change colours only; `insertLoop_run` and `deleteLoop_run` say that
they end soon after the first rotation.
-/

namespace Kalisto

namespace Rbtree

variable {α : Type} [DecidableEq α] {t : Rbtree α}

/-- **`__rbtree_rebalance_insert`** on a freshly linked node. -/
theorem Repr.rebalanceInsert_rotated {k : Ctx α} {T : CTree α} {x : α} {fuel : ℕ}
    (h : t.Repr (Ctx.plug k T)) (hx : T.root = some x) (hT : T.isRed = true) (hk : k.Colored)
    (hfuel : k.length < fuel) : (t.rebalanceInsert fuel x).Yields (Rotated 2 t) := by
  refine Outcome.Yields.bind (insertLoop_run k T h hx hT hk hfuel) fun t₁ h₁ => ?_
  obtain ⟨r, hr⟩ := exists_root_fixInsert k hx
  rw [h₁.1.root, hr]
  exact Outcome.yields_ok (h₁.2.paint (by simp))

/-- **`__rbtree_rebalance_delete`** at a gap. -/
theorem Repr.rebalanceDelete_rotated {k : Ctx α} {T : CTree α} {fuel n : ℕ}
    (h : t.Repr (Ctx.plug k T)) (hTn : T.NoRedRed) (hTb : T.Balanced n) (hk : k.Colored)
    (hkb : k.Balanced (n + 1)) (hfuel : k.length < fuel) :
    (t.rebalanceDelete fuel (Ctx.above k) T.root).Yields (Rotated 3 t) := by
  refine Outcome.Yields.bind (deleteLoop_run k T h hTn.blacken hTb hk hkb hfuel) ?_
  rintro ⟨t', node⟩ ⟨-, hrot⟩
  cases node with
  | none => exact Outcome.yields_ok hrot
  | some y => exact Outcome.yields_ok (hrot.paint (by simp))

/-- **Rotations.**  On every red-black tree: `rbtree_insert` of a node outside it at any `NULL` link of it
leaves the links that come from hanging the node there by at most two rotations; and `rbtree_delete` of
any node leaves the links that come from unlinking it, or the node in its place, by at most three.  What
is unlinked represents the tree with the gap of the node, and holds the other nodes in their order. -/
theorem rbtree_rotations {T : CTree α} (h : t.Repr T) (hrb : T.RedBlack) {fuel : ℕ}
    (hfuel : T.toList.length < fuel) :
    (∀ x parent clinkp, x ∉ T.toList → OpenLink t T parent clinkp →
      (t.rbtreeInsert fuel (some x) parent (some clinkp)).Yields
        (Rotated 2 ((t.setNode x ⟨.red, none, none, parent⟩).setLink clinkp (some x)))) ∧
    ∀ x ∈ T.toList, ∃ k c l r t₁, T = Ctx.plug k (.node c l x r) ∧
      t.unlink fuel x = .ok (t₁, Ctx.above (Ctx.gapOf k c l r).1, (Ctx.gapOf k c l r).2.2.root,
        (Ctx.gapOf k c l r).2.1) ∧
      t₁.Repr (Ctx.plug (Ctx.gapOf k c l r).1 (Ctx.gapOf k c l r).2.2) ∧
      (Ctx.plug (Ctx.gapOf k c l r).1 (Ctx.gapOf k c l r).2.2).toList = T.toList.erase x ∧
      (t.rbtreeDelete fuel (some x)).Yields (Rotated 3 t₁) := by
  refine ⟨fun x parent clinkp hx hlink => ?_, fun x hx => ?_⟩
  · obtain ⟨k, rfl, rfl, rfl⟩ := hlink.exists_ctx h
    obtain ⟨hk, -⟩ := (Ctx.redBlack_plug k _).mp hrb
    exact (h.setLink hx).rebalanceInsert_rotated rfl rfl hk ((Ctx.length_le k _).trans_lt hfuel)
  · obtain ⟨k, c, l, r, rfl⟩ := Ctx.exists_plug hx
    obtain ⟨t₁, hrun, h₁⟩ := unlink_spec h (show _ ≤ fuel by omega)
    obtain ⟨n, hk, hkb, hTn, hTb, -⟩ := Ctx.gapOf_ok hrb
    refine ⟨k, c, l, r, t₁, rfl, hrun, h₁, toList_gapOf h.nodup, ?_⟩
    simp only [rbtreeDelete, assert, Option.isSome_some, if_true, deref, Outcome.ok_bind, delete, hrun]
    cases hc : (Ctx.gapOf k c l r).2.1 with
    | red => exact Outcome.yields_ok (.of_links rfl)
    | black =>
      rw [hc] at hkb
      exact h₁.rebalanceDelete_rotated hTn hTb hk hkb ((gapOf_length_lt h.nodup).trans hfuel)

/-- The tree of the nodes 3 and 5: the node 2 below 3 takes rotations, the node 5 is unlinked. -/
theorem rbtree_rotations_twoNodes :
    (twoNodes.rbtreeInsert 10 (some 2) (some 3) (some (.left 3))).Yields
        (Rotated 2 ((twoNodes.setNode 2 ⟨.red, none, none, some 3⟩).setLink (.left 3) (some 2))) ∧
      ∃ T₁ t₁ parent child color, twoNodes.unlink 10 5 = .ok (t₁, parent, child, color) ∧
        t₁.Repr T₁ ∧ T₁.toList = [3] ∧ (twoNodes.rbtreeDelete 10 (some 5)).Yields (Rotated 3 t₁) := by
  obtain ⟨hinsert, hdelete⟩ := rbtree_rotations twoNodes_repr twoNodes_redBlack
    (show twoNodesTree.toList.length < 10 by decide)
  obtain ⟨k, c, l, r, t₁, -, hrun, hrepr, hlist, hrot⟩ := hdelete 5 (by decide)
  exact ⟨hinsert 2 (some 3) (.left 3) (by decide) ⟨rfl, by decide, rfl⟩,
    _, t₁, _, _, _, hrun, hrepr, hlist, hrot⟩

end Rbtree

end Kalisto
