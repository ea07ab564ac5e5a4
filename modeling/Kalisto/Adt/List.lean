import Kalisto.Include
import Kalisto.Lib.Outcome
import Kalisto.Lib.Ring

/-!
# The intrusive lists of `adt/list.h`

A link is an address `α` with two pointers, kept in `Links α`; a list is the address of its head.
`NULL` is `none`, a failed `assert` and a `NULL` that is followed are faults.

`Pool` is what the lists are for: a family of sequences, one for each initialised head, and the links
that are initialised and in no list.  `Pool.apply` says what each operation does to the sequences.

* `Rep.apply` — every operation does to the pointers what `Pool.apply` does to the sequences;
* `list_refinement` — in every reachable state the pointers represent the sequences, in both
  directions, and the tests tell the truth.
-/

namespace Kalisto

namespace LinkList

variable {α : Type} [DecidableEq α]

/-! ### The code -/

/-- `assert (ptr != NULL)`. -/
def assertPtr : Option α → Outcome Fault α
  | some a => .ok a
  | none => .fault .assertion

/-- The pointer is followed. -/
def deref : Option α → Outcome Fault α
  | some a => .ok a
  | none => .fault .nullDeref

/-- `link_init`. -/
def linkInit (l : Links α) (link : Option α) : Outcome Fault (Links α) := do
  let a ← assertPtr link
  return (l.setPrev a none).setNext a none

/-- `list_init`. -/
def listInit (l : Links α) (list : Option α) : Outcome Fault (Links α) := do
  let h ← assertPtr list
  return (l.setPrev h (some h)).setNext h (some h)

/-- `link_connected`. -/
def linkConnected (l : Links α) (link : Option α) : Outcome Fault Bool := do
  let a ← assertPtr link
  return (l.prev a).isSome && (l.next a).isSome

/-- `list_empty`. -/
def listEmpty (l : Links α) (list : Option α) : Outcome Fault Bool := do
  let h ← assertPtr list
  return decide (l.next h = some h)

/-- `list_prepend`. -/
def listPrepend (l : Links α) (list link : Option α) : Outcome Fault (Links α) := do
  let h ← assertPtr list
  let x ← assertPtr link
  let l := l.setNext x (l.next h)
  let l := l.setPrev x (some h)
  let n ← deref (l.next h)
  let l := l.setPrev n (some x)
  return l.setNext h (some x)

/-- `list_append`. -/
def listAppend (l : Links α) (list link : Option α) : Outcome Fault (Links α) := do
  let h ← assertPtr list
  let x ← assertPtr link
  let l := l.setNext x (some h)
  let l := l.setPrev x (l.prev h)
  let p ← deref (l.prev h)
  let l := l.setNext p (some x)
  return l.setPrev h (some x)

/-- The two assignments of `list_remove` to the neighbours. -/
def unlinkNeighbours (l : Links α) (a : α) : Outcome Fault (Links α) := do
  let n ← deref (l.next a)
  let l := l.setPrev n (l.prev a)
  let p ← deref (l.prev a)
  return l.setNext p (l.next a)

/-- `list_remove`. -/
def listRemove (l : Links α) (link : Option α) : Outcome Fault (Links α) := do
  let a ← assertPtr link
  let connected ← linkConnected l link
  let l ← if connected then unlinkNeighbours l a else .ok l
  linkInit l link

/-- `list_pop`. -/
def listPop (l : Links α) (list : Option α) : Outcome Fault (Option α × Links α) := do
  let h ← assertPtr list
  let empty ← listEmpty l list
  if empty then .ok (none, l)
  else do
    let item := l.next h
    let l ← listRemove l item
    return (item, l)

/-- `list_rotate`. -/
def listRotate (l : Links α) (list : Option α) : Outcome Fault (Option α × Links α) := do
  let empty ← listEmpty l list
  if empty then .ok (none, l)
  else do
    let (item, l) ← listPop l list
    let l ← listAppend l list item
    return (item, l)

/-- The rounds of `list_foreach` from `link` on: the links it visits. -/
def foreachFrom (l : Links α) (h : α) : ℕ → Option α → Outcome Fault (List α)
  | 0, _ => .timeout
  | _ + 1, none => .fault .nullDeref
  | n + 1, some a =>
    if a = h then .ok []
    else do
      let rest ← foreachFrom l h n (l.next a)
      return a :: rest

/-- `list_foreach`. -/
def listForeach (l : Links α) (h : α) (fuel : ℕ) : Outcome Fault (List α) :=
  foreachFrom l h fuel (l.next h)

/-! ### The operations on one list -/

section OneList

variable {l : Links α} {h x : α} {xs ys : List α}

theorem listEmpty_apply (hr : l.Ring h xs) : listEmpty l (some h) = .ok (decide (xs = [])) := by
  simp only [listEmpty, assertPtr, Outcome.ok_bind, Outcome.pure_eq, hr.next_head_eq]

/-- **`list_append`.** -/
theorem listAppend_apply (hr : l.Ring h xs) (hx : x ∉ h :: xs) :
    ∃ p ∈ h :: xs, l.prev h = some p ∧
      listAppend l (some h) (some x) = .ok (l.pushBack h p x) := by
  obtain ⟨p, hp, hprev⟩ := hr.prev_mem (x := h) (by simp)
  have hxh : h ≠ x := fun heq => hx (by simp [heq])
  refine ⟨p, hp, hprev, ?_⟩
  simp only [listAppend, assertPtr, Outcome.ok_bind, Links.setPrev_prev, Links.setNext_prev, hxh,
    if_false, hprev, deref, Outcome.pure_eq, Links.pushBack]

/-- **`list_prepend`.** -/
theorem listPrepend_apply (hr : l.Ring h xs) (hx : x ∉ h :: xs) :
    ∃ n ∈ h :: xs, l.next h = some n ∧
      listPrepend l (some h) (some x) = .ok (l.pushFront h n x) := by
  obtain ⟨n, hn, hnext⟩ := hr.next_mem (x := h) (by simp)
  have hxh : h ≠ x := fun heq => hx (by simp [heq])
  refine ⟨n, hn, hnext, ?_⟩
  simp only [listPrepend, assertPtr, Outcome.ok_bind, Links.setPrev_next, Links.setNext_next, hxh,
    if_false, hnext, deref, Outcome.pure_eq, Links.pushFront]

/-- The links after an item between `p` and `n` was taken out. -/
def removed (l : Links α) (p n x : α) : Links α := ((l.unlink p n).setPrev x none).setNext x none

/-- **`list_remove`** of an item of a list. -/
theorem listRemove_apply (hr : l.Ring h (xs ++ x :: ys)) :
    ∃ p ∈ h :: xs, ∃ n ∈ h :: ys, p ≠ x ∧ n ≠ x ∧ l.prev x = some p ∧ l.next x = some n ∧
      listRemove l (some x) = .ok (removed l p n x) := by
  obtain ⟨p, -, hprev⟩ := hr.prev_mem (x := x) (by simp)
  obtain ⟨n, -, hnext⟩ := hr.next_mem (x := x) (by simp)
  obtain ⟨hpm, hpx⟩ := hr.prev_item_mem hprev
  obtain ⟨hnm, hnx⟩ := hr.next_item_mem hnext
  refine ⟨p, hpm, n, hnm, hpx, hnx, hprev, hnext, ?_⟩
  simp only [listRemove, linkConnected, assertPtr, Outcome.ok_bind, Outcome.pure_eq, hprev, hnext,
    Option.isSome_some, Bool.and_self, if_true, unlinkNeighbours, deref, Links.setPrev_prev,
    Links.setPrev_next, hnx.symm, if_false, linkInit, removed, Links.unlink]

/-- `list_remove` of a link that is in no list. -/
theorem listRemove_loose (hp : l.prev x = none) :
    listRemove l (some x) = .ok ((l.setPrev x none).setNext x none) := by
  simp only [listRemove, linkConnected, assertPtr, Outcome.ok_bind, Outcome.pure_eq, hp,
    Option.isSome_none, Bool.false_and, Bool.false_eq_true, if_false, linkInit]

/-- **`list_foreach`** visits the sequence. -/
theorem foreachFrom_seg {a : α} (hs : Links.Seg l a xs h) (hnot : h ∉ xs) (fuel : ℕ)
    (hfuel : xs.length < fuel) : foreachFrom l h fuel (l.next a) = .ok xs := by
  induction xs generalizing a fuel with
  | nil =>
    obtain ⟨fuel, rfl⟩ : ∃ n, fuel = n + 1 := ⟨fuel - 1, by omega⟩
    rw [hs.1, foreachFrom, if_pos rfl]
  | cons x xs ih =>
    obtain ⟨fuel, rfl⟩ : ∃ n, fuel = n + 1 := ⟨fuel - 1, by omega⟩
    simp only [List.length_cons] at hfuel
    simp only [List.mem_cons, not_or] at hnot
    obtain ⟨h1, -, h3⟩ := hs
    rw [h1, foreachFrom, if_neg (Ne.symm hnot.1), ih h3 hnot.2 fuel (by omega)]
    rfl

theorem listForeach_returns (hr : l.Ring h xs) :
    Outcome.Returns (fun fuel => listForeach l h fuel) xs := by
  refine ⟨xs.length + 1, fun fuel hfuel => ?_⟩
  exact foreachFrom_seg hr.seg (List.nodup_cons.mp hr.nodup).1 fuel (by omega)

end OneList

/-! ### The pool of lists -/

/-- **The abstract lists.**  One sequence for each initialised head, and the initialised links that
are in no list. -/
structure Pool (α : Type) where
  lists : α → Option (List α)
  loose : Set α

namespace Pool

variable (P : Pool α)

/-- Nothing is initialised. -/
def empty : Pool α := ⟨fun _ => none, ∅⟩

/-- The link is an item of some list. -/
def InList (a : α) : Prop := ∃ h xs, P.lists h = some xs ∧ a ∈ xs

/-- The address is neither a head nor an initialised link. -/
def Fresh (a : α) : Prop := P.lists a = none ∧ a ∉ P.loose ∧ ¬ P.InList a

/-- The list of `h` becomes `xs`. -/
def setList (h : α) (xs : List α) : Pool α := { P with lists := Function.update P.lists h (some xs) }

/-- The link is in no list any more. -/
def release (a : α) : Pool α := { P with loose := insert a P.loose }

/-- The link goes into a list. -/
def take (a : α) : Pool α := { P with loose := P.loose \ {a} }

end Pool

/-- The operations of `adt/list.h` that change links. -/
inductive Op (α : Type)
  | listInit (h : α)
  | linkInit (a : α)
  | append (h a : α)
  | prepend (h a : α)
  | remove (a : α)
  | pop (h : α)
  | rotate (h : α)

/-- What the operation returns (`none` is `NULL`, or no value) and what it does to the links. -/
def Op.run (l : Links α) : Op α → Outcome Fault (Option α × Links α)
  | .listInit h => do let l ← LinkList.listInit l (some h); return (none, l)
  | .linkInit a => do let l ← LinkList.linkInit l (some a); return (none, l)
  | .append h a => do let l ← listAppend l (some h) (some a); return (none, l)
  | .prepend h a => do let l ← listPrepend l (some h) (some a); return (none, l)
  | .remove a => do let l ← listRemove l (some a); return (none, l)
  | .pop h => listPop l (some h)
  | .rotate h => listRotate l (some h)

namespace Pool

/-- **What the operations do to the sequences.** -/
def apply (P : Pool α) : Op α → Option α × Pool α
  | .listInit h => (none, P.setList h [])
  | .linkInit a => (none, P.release a)
  | .append h a => (none, (P.setList h ((P.lists h).getD [] ++ [a])).take a)
  | .prepend h a => (none, (P.setList h (a :: (P.lists h).getD [])).take a)
  | .remove a => (none, { lists := fun h => (P.lists h).map (·.erase a), loose := insert a P.loose })
  | .pop h =>
    match P.lists h with
    | some (x :: xs) => (some x, (P.setList h xs).release x)
    | _ => (none, P)
  | .rotate h =>
    match P.lists h with
    | some (x :: xs) => (some x, P.setList h (xs ++ [x]))
    | _ => (none, P)

/-- **What the callers promise.**  Initialisation is of a fresh address; a link that goes into a list
is initialised and in no list; a link that is removed is initialised. -/
def Admits (P : Pool α) : Op α → Prop
  | .listInit h => P.Fresh h
  | .linkInit a => P.Fresh a
  | .append h a => P.lists h ≠ none ∧ a ∈ P.loose
  | .prepend h a => P.lists h ≠ none ∧ a ∈ P.loose
  | .remove a => a ∈ P.loose ∨ P.InList a
  | .pop h => P.lists h ≠ none
  | .rotate h => P.lists h ≠ none

end Pool

/-- **The links represent the pool.** -/
structure Rep (P : Pool α) (l : Links α) : Prop where
  ring : ∀ h xs, P.lists h = some xs → l.Ring h xs
  disjoint : ∀ h₁ h₂ xs ys, P.lists h₁ = some xs → P.lists h₂ = some ys → h₁ ≠ h₂ →
    List.Disjoint (h₁ :: xs) (h₂ :: ys)
  outside : ∀ a ∈ P.loose, ∀ h xs, P.lists h = some xs → a ∉ h :: xs
  null : ∀ a ∈ P.loose, l.prev a = none ∧ l.next a = none

/-- The pairs of a pool and its links that the operations reach.  The links start with any content:
memory before it is initialised. -/
inductive Reachable : Pool α → Links α → Prop
  | init (l : Links α) : Reachable Pool.empty l
  | step {P : Pool α} {l l' : Links α} {op : Op α} {r : Option α} :
      Reachable P l → P.Admits op → op.run l = .ok (r, l') → Reachable (P.apply op).2 l'

namespace Rep

variable {P : Pool α} {l l' : Links α} {h a : α} {xs ys : List α}

/-- **Frame.**  An operation on the list of `h` may use its links and the loose ones; the other lists
stay as they are. -/
theorem update (hrep : Rep P l) {L : Set α}
    (hxs : ∀ h' zs, h' ≠ h → P.lists h' = some zs → List.Disjoint (h' :: zs) (h :: xs))
    (hring : l'.Ring h ys)
    (hys : ∀ y ∈ h :: ys, y ∈ h :: xs ∨ y ∈ P.loose)
    (hL : ∀ y ∈ L, (y ∈ P.loose ∨ y ∈ h :: xs) ∧ y ∉ h :: ys ∧ l'.prev y = none ∧ l'.next y = none)
    (hframe : ∀ y, y ∉ h :: xs → y ∉ P.loose → l'.next y = l.next y ∧ l'.prev y = l.prev y) :
    Rep ⟨Function.update P.lists h (some ys), L⟩ l' := by
  -- the links of another list are neither loose nor links of the list of `h`
  have hother : ∀ h' zs, h' ≠ h → P.lists h' = some zs → ∀ y ∈ h' :: zs,
      y ∉ h :: xs ∧ y ∉ P.loose := fun h' zs hne hzs y hy =>
    ⟨fun hy' => hxs h' zs hne hzs hy hy', fun hl => hrep.outside y hl h' zs hzs hy⟩
  have hdis : ∀ h' zs, h' ≠ h → P.lists h' = some zs → List.Disjoint (h :: ys) (h' :: zs) := by
    intro h' zs hne hzs y hy hy'
    obtain ⟨hn, hl⟩ := hother h' zs hne hzs y hy'
    exact (hys y hy).elim hn hl
  constructor
  · intro h' zs hzs
    simp only [Function.update_apply] at hzs
    split at hzs
    · next heq =>
      obtain rfl : ys = zs := by simpa using hzs
      exact heq ▸ hring
    · next hne =>
      refine (hrep.ring h' zs hzs).congr fun y hy => ?_
      exact hframe y (hother h' zs hne hzs y hy).1 (hother h' zs hne hzs y hy).2
  · intro h₁ h₂ us vs hus hvs hne
    simp only [Function.update_apply] at hus hvs
    split at hus <;> split at hvs
    · next h1 h2 => exact absurd (h1.trans h2.symm) hne
    · next h1 h2 =>
      obtain rfl : ys = us := by simpa using hus
      exact h1 ▸ hdis h₂ vs h2 hvs
    · next h1 h2 =>
      obtain rfl : ys = vs := by simpa using hvs
      exact h2 ▸ (hdis h₁ us h1 hus).symm
    · exact hrep.disjoint h₁ h₂ us vs hus hvs hne
  · intro y hy h' zs hzs
    simp only [Function.update_apply] at hzs
    obtain ⟨hor, hnot, -⟩ := hL y hy
    split at hzs
    · next heq =>
      obtain rfl : ys = zs := by simpa using hzs
      exact heq ▸ hnot
    · next hne =>
      intro hmem
      obtain ⟨hn, hl⟩ := hother h' zs hne hzs y hmem
      exact hor.elim hl hn
  · exact fun y hy => (hL y hy).2.2

omit [DecidableEq α] in
/-- An initialised list is disjoint from the others. -/
theorem others (hrep : Rep P l) (hxs : P.lists h = some xs) :
    ∀ h' zs, h' ≠ h → P.lists h' = some zs → List.Disjoint (h' :: zs) (h :: xs) :=
  fun h' zs hne hzs => hrep.disjoint h' h zs xs hzs hxs hne

theorem listInit (hrep : Rep P l) (hf : P.Fresh h) :
    Rep (P.setList h []) ((l.setPrev h (some h)).setNext h (some h)) := by
  obtain ⟨hnone, hloose, hin⟩ := hf
  have hothers : ∀ h' zs, h' ≠ h → P.lists h' = some zs → List.Disjoint (h' :: zs) [h] := by
    intro h' zs hne hzs
    simp only [List.disjoint_singleton, List.mem_cons, not_or]
    exact ⟨Ne.symm hne, fun hm => hin ⟨h', zs, hzs, hm⟩⟩
  refine hrep.update hothers ⟨by simp [Links.Seg], by simp⟩ (by simp) ?_ ?_
  · intro y hy
    have hyh : y ≠ h := fun heq => hloose (heq ▸ hy)
    simp [hyh, hy, hrep.null y hy]
  · intro y hy _
    simp only [List.mem_singleton] at hy
    simp [hy]

/-- A link outside every list is initialised, or initialised once more. -/
theorem linkInit (hrep : Rep P l) (ha : ∀ h xs, P.lists h = some xs → a ∉ h :: xs) :
    Rep (P.release a) ((l.setPrev a none).setNext a none) := by
  constructor
  · intro h' zs hzs
    refine (hrep.ring h' zs hzs).congr fun y hy => ?_
    have hya : y ≠ a := ne_of_mem_of_not_mem hy (ha h' zs hzs)
    simp [hya]
  · exact hrep.disjoint
  · intro y hy h' zs hzs
    rcases hy with rfl | hy
    · exact ha h' zs hzs
    · exact hrep.outside y hy h' zs hzs
  · intro y hy
    rcases hy with rfl | hy
    · simp
    · by_cases hya : y = a <;> simp [hya, hrep.null y hy]

/-- The memory of a link outside every list is used for something else. -/
theorem overwrite (hrep : Rep P l) (ha : ∀ h xs, P.lists h = some xs → a ∉ h :: xs)
    (p n : Option α) : Rep (P.take a) ((l.setPrev a p).setNext a n) := by
  refine ⟨fun h' zs hzs => ?_, hrep.disjoint, fun y hy => hrep.outside y hy.1, fun y hy => ?_⟩
  · refine (hrep.ring h' zs hzs).congr fun y hy => ?_
    have hya : y ≠ a := ne_of_mem_of_not_mem hy (ha h' zs hzs)
    simp [hya]
  · have hya : y ≠ a := hy.2
    simp [hya, hrep.null y hy.1]

omit [DecidableEq α] in
/-- The loose links after `a` went into the list of `h`. -/
theorem loose_take (hrep : Rep P l) (hxs : P.lists h = some xs) (hys : ys.Perm (a :: xs))
    (hkeep : ∀ y, y ∉ h :: xs → y ≠ a → l'.next y = l.next y ∧ l'.prev y = l.prev y) :
    ∀ y ∈ P.loose \ {a}, (y ∈ P.loose ∨ y ∈ h :: xs) ∧ y ∉ h :: ys ∧
      l'.prev y = none ∧ l'.next y = none := by
  rintro y ⟨hy, hya⟩
  have hout := hrep.outside y hy h xs hxs
  obtain ⟨hn, hp⟩ := hkeep y hout hya
  refine ⟨Or.inl hy, ?_, hp ▸ (hrep.null y hy).1, hn ▸ (hrep.null y hy).2⟩
  simp only [List.mem_cons, hys.mem_iff, not_or] at hout ⊢
  exact ⟨hout.1, hya, hout.2⟩

theorem listAppend (hrep : Rep P l) (hxs : P.lists h = some xs) (ha : a ∈ P.loose) :
    ∃ l', LinkList.listAppend l (some h) (some a) = .ok l' ∧
      Rep ((P.setList h (xs ++ [a])).take a) l' := by
  have hout := hrep.outside a ha h xs hxs
  obtain ⟨p, hp, hprev, heq⟩ := listAppend_apply (hrep.ring h xs hxs) hout
  have hkeep : ∀ y, y ∉ h :: xs → y ≠ a → (l.pushBack h p a).next y = l.next y ∧
      (l.pushBack h p a).prev y = l.prev y := by
    intro y hy hya
    have hyh : y ≠ h := fun heq => hy (by simp [heq])
    have hyp : y ≠ p := fun heq => hy (heq ▸ hp)
    simp [Links.pushBack, hya, hyh, hyp]
  have hperm : (xs ++ [a]).Perm (a :: xs) := List.perm_append_singleton a xs
  refine ⟨_, heq, hrep.update (hrep.others hxs) ((hrep.ring h xs hxs).pushBack hprev hout) ?_
    (hrep.loose_take hxs hperm hkeep) fun y hy hl => hkeep y hy fun heq => hl (heq ▸ ha)⟩
  intro y hy
  simp only [List.mem_cons, hperm.mem_iff] at hy ⊢
  rcases hy with rfl | rfl | hy
  · exact Or.inl (Or.inl rfl)
  · exact Or.inr ha
  · exact Or.inl (Or.inr hy)

theorem listPrepend (hrep : Rep P l) (hxs : P.lists h = some xs) (ha : a ∈ P.loose) :
    ∃ l', LinkList.listPrepend l (some h) (some a) = .ok l' ∧
      Rep ((P.setList h (a :: xs)).take a) l' := by
  have hout := hrep.outside a ha h xs hxs
  obtain ⟨n, hn, hnext, heq⟩ := listPrepend_apply (hrep.ring h xs hxs) hout
  have hkeep : ∀ y, y ∉ h :: xs → y ≠ a → (l.pushFront h n a).next y = l.next y ∧
      (l.pushFront h n a).prev y = l.prev y := by
    intro y hy hya
    have hyh : y ≠ h := fun heq => hy (by simp [heq])
    have hyn : y ≠ n := fun heq => hy (heq ▸ hn)
    simp [Links.pushFront, hya, hyh, hyn]
  refine ⟨_, heq, hrep.update (hrep.others hxs) ((hrep.ring h xs hxs).pushFront hnext hout) ?_
    (hrep.loose_take hxs (List.Perm.refl _) hkeep) fun y hy hl => hkeep y hy fun heq => hl (heq ▸ ha)⟩
  intro y hy
  simp only [List.mem_cons] at hy ⊢
  rcases hy with rfl | rfl | hy
  · exact Or.inl (Or.inl rfl)
  · exact Or.inr ha
  · exact Or.inl (Or.inr hy)

/-- `list_remove` of an item of the list of `h`. -/
theorem listRemove_item (hrep : Rep P l) (hxs : P.lists h = some (xs ++ a :: ys)) :
    ∃ l', listRemove l (some a) = .ok l' ∧ Rep ((P.setList h (xs ++ ys)).release a) l' := by
  have hr := hrep.ring h _ hxs
  obtain ⟨p, hp, n, hn, hpa, hna, hprev, hnext, heq⟩ := listRemove_apply hr
  have hkeep : ∀ y, y ∉ h :: (xs ++ a :: ys) → (removed l p n a).next y = l.next y ∧
      (removed l p n a).prev y = l.prev y := by
    intro y hy
    simp only [List.mem_cons, List.mem_append, not_or] at hy hp hn
    obtain ⟨hyh, hyx, hya, hyy⟩ := hy
    have hyp : y ≠ p := by
      rintro rfl
      exact hp.elim hyh hyx
    have hyn : y ≠ n := by
      rintro rfl
      exact hn.elim hyh hyy
    simp [removed, Links.unlink, hyp, hyn, hya]
  have hanot : a ∉ h :: (xs ++ ys) := by
    have hnd := (List.perm_middle.cons h).nodup_iff.mp hr.nodup
    have hswap := (List.Perm.swap a h (xs ++ ys)).nodup_iff.mp hnd
    exact (List.nodup_cons.mp hswap).1
  have hsub : ∀ y, y ∈ h :: (xs ++ ys) → y ∈ h :: (xs ++ a :: ys) := by
    intro y hy
    simp only [List.mem_cons, List.mem_append] at hy ⊢
    tauto
  refine ⟨_, heq, hrep.update (hrep.others hxs) ?_ (fun y hy => Or.inl (hsub y hy)) ?_
    fun y hy _ => hkeep y hy⟩
  · refine (hr.unlink hprev hnext).congr fun y hy => ?_
    have hya : y ≠ a := ne_of_mem_of_not_mem hy hanot
    simp [removed, hya]
  · rintro y (rfl | hy)
    · exact ⟨Or.inr (by simp), hanot, by simp [removed], by simp [removed]⟩
    · have hout := hrep.outside y hy h _ hxs
      obtain ⟨hn', hp'⟩ := hkeep y hout
      exact ⟨Or.inl hy, fun hm => hout (hsub y hm), hp' ▸ (hrep.null y hy).1,
        hn' ▸ (hrep.null y hy).2⟩

/-- **`list_remove`** of an initialised link, in a list or not. -/
theorem listRemove (hrep : Rep P l) (ha : a ∈ P.loose ∨ P.InList a) :
    ∃ l', LinkList.listRemove l (some a) = .ok l' ∧
      Rep ⟨fun h => (P.lists h).map (·.erase a), insert a P.loose⟩ l' := by
  rcases ha with ha | ⟨h, zs, hzs, hmem⟩
  · have hout := hrep.outside a ha
    have hlists : (fun h => (P.lists h).map (·.erase a)) = P.lists := by
      funext h
      cases hc : P.lists h with
      | none => rfl
      | some xs =>
        have hnot : a ∉ xs := fun hm => hout h xs hc (List.mem_cons_of_mem h hm)
        simp [List.erase_of_not_mem hnot]
    rw [hlists]
    exact ⟨_, listRemove_loose (hrep.null a ha).1, hrep.linkInit hout⟩
  · obtain ⟨xs, ys, rfl⟩ := List.append_of_mem hmem
    obtain ⟨l', hrun, hrep'⟩ := hrep.listRemove_item hzs
    refine ⟨l', hrun, ?_⟩
    have hlists : (fun h => (P.lists h).map (·.erase a)) =
        Function.update P.lists h (some (xs ++ ys)) := by
      funext h'
      by_cases hh : h' = h
      · subst hh
        have hnot : a ∉ xs := by
          have hnd := (List.nodup_cons.mp (hrep.ring h' _ hzs).nodup).2
          exact fun hm => (List.nodup_append.mp hnd).2.2 a hm a (by simp) rfl
        simp [hzs, List.erase_append_right _ hnot]
      · rw [Function.update_of_ne hh]
        cases hc : P.lists h' with
        | none => rfl
        | some us =>
          have hnot : a ∉ us := fun hm =>
            hrep.disjoint h' h us _ hc hzs hh (List.mem_cons_of_mem h' hm) (by simp)
          simp [List.erase_of_not_mem hnot]
    rw [hlists]
    exact hrep'

/-- **`list_pop`** of a list with items. -/
theorem listPop (hrep : Rep P l) {x : α} (hxs : P.lists h = some (x :: xs)) :
    ∃ l', LinkList.listPop l (some h) = .ok (some x, l') ∧
      Rep ((P.setList h xs).release x) l' := by
  have hr := hrep.ring h _ hxs
  obtain ⟨l', hrun, hrep'⟩ := @Rep.listRemove_item α _ P l h x [] xs hrep hxs
  refine ⟨l', ?_, hrep'⟩
  simp only [LinkList.listPop, assertPtr, listEmpty_apply hr, hr.next_head, hrun, Outcome.ok_bind,
    Outcome.pure_eq, reduceCtorEq, decide_false, Bool.false_eq_true, if_false]

/-- **`list_rotate`** of a list with items. -/
theorem listRotate (hrep : Rep P l) {x : α} (hxs : P.lists h = some (x :: xs)) :
    ∃ l', LinkList.listRotate l (some h) = .ok (some x, l') ∧ Rep (P.setList h (xs ++ [x])) l' := by
  have hr := hrep.ring h _ hxs
  obtain ⟨l₁, hpop, hrep₁⟩ := hrep.listPop hxs
  have hlist : ((P.setList h xs).release x).lists h = some xs := by
    simp [Pool.setList, Pool.release]
  obtain ⟨l₂, happ, hrep₂⟩ := hrep₁.listAppend hlist (Set.mem_insert x _)
  have hx : x ∉ P.loose := fun hl => hrep.outside x hl h _ hxs (by simp)
  refine ⟨l₂, ?_, ?_⟩
  · simp only [LinkList.listRotate, listEmpty_apply hr, hpop, happ, Outcome.ok_bind, Outcome.pure_eq,
      reduceCtorEq, decide_false, Bool.false_eq_true, if_false]
  · have hpool : (((P.setList h xs).release x).setList h (xs ++ [x])).take x =
        P.setList h (xs ++ [x]) := by
      simp [Pool.setList, Pool.release, Pool.take, hx]
    exact hpool ▸ hrep₂

/-- An empty list has nothing to pop and nothing to rotate. -/
theorem pop_empty (hrep : Rep P l) (hxs : P.lists h = some []) :
    LinkList.listPop l (some h) = .ok (none, l) ∧ LinkList.listRotate l (some h) = .ok (none, l) := by
  have hr := hrep.ring h _ hxs
  constructor
  · simp only [LinkList.listPop, assertPtr, listEmpty_apply hr, Outcome.ok_bind, decide_true, if_true]
  · simp only [LinkList.listRotate, listEmpty_apply hr, Outcome.ok_bind, decide_true, if_true]

/-- **Refinement.**  Every admitted operation returns what it returns on the sequences, and the links
represent the new sequences. -/
theorem apply (hrep : Rep P l) {op : Op α} (hadm : P.Admits op) :
    ∃ l', op.run l = .ok ((P.apply op).1, l') ∧ Rep (P.apply op).2 l' := by
  cases op with
  | listInit h => exact ⟨_, rfl, hrep.listInit hadm⟩
  | linkInit a =>
    refine ⟨_, rfl, hrep.linkInit fun h xs hxs hmem => ?_⟩
    rcases List.mem_cons.mp hmem with rfl | hmem
    · exact absurd hadm.1 (by simp [hxs])
    · exact hadm.2.2 ⟨h, xs, hxs, hmem⟩
  | append h a =>
    obtain ⟨xs, hxs⟩ := Option.ne_none_iff_exists'.mp hadm.1
    obtain ⟨l', hrun, hrep'⟩ := hrep.listAppend hxs hadm.2
    refine ⟨l', ?_, by simpa [Pool.apply, hxs] using hrep'⟩
    simp only [Op.run, hrun, Outcome.ok_bind, Outcome.pure_eq, Pool.apply]
  | prepend h a =>
    obtain ⟨xs, hxs⟩ := Option.ne_none_iff_exists'.mp hadm.1
    obtain ⟨l', hrun, hrep'⟩ := hrep.listPrepend hxs hadm.2
    refine ⟨l', ?_, by simpa [Pool.apply, hxs] using hrep'⟩
    simp only [Op.run, hrun, Outcome.ok_bind, Outcome.pure_eq, Pool.apply]
  | remove a =>
    obtain ⟨l', hrun, hrep'⟩ := hrep.listRemove hadm
    refine ⟨l', ?_, hrep'⟩
    simp only [Op.run, hrun, Outcome.ok_bind, Outcome.pure_eq, Pool.apply]
  | pop h =>
    obtain ⟨xs, hxs⟩ := Option.ne_none_iff_exists'.mp hadm
    cases xs with
    | nil =>
      refine ⟨l, ?_, by simpa [Pool.apply, hxs] using hrep⟩
      simpa [Op.run, Pool.apply, hxs] using (hrep.pop_empty hxs).1
    | cons x xs =>
      obtain ⟨l', hrun, hrep'⟩ := hrep.listPop hxs
      exact ⟨l', by simpa [Op.run, Pool.apply, hxs] using hrun,
        by simpa [Pool.apply, hxs] using hrep'⟩
  | rotate h =>
    obtain ⟨xs, hxs⟩ := Option.ne_none_iff_exists'.mp hadm
    cases xs with
    | nil =>
      refine ⟨l, ?_, by simpa [Pool.apply, hxs] using hrep⟩
      simpa [Op.run, Pool.apply, hxs] using (hrep.pop_empty hxs).2
    | cons x xs =>
      obtain ⟨l', hrun, hrep'⟩ := hrep.listRotate hxs
      exact ⟨l', by simpa [Op.run, Pool.apply, hxs] using hrun,
        by simpa [Pool.apply, hxs] using hrep'⟩

omit [DecidableEq α] in
/-- **`link_connected`** tells whether an initialised link is in a list. -/
theorem linkConnected (hrep : Rep P l) (ha : a ∈ P.loose ∨ P.InList a) :
    ∃ b, LinkList.linkConnected l (some a) = .ok b ∧ (b = true ↔ P.InList a) := by
  rcases ha with ha | ha
  · refine ⟨false, ?_, ?_⟩
    · simp only [LinkList.linkConnected, assertPtr, (hrep.null a ha).1, Outcome.ok_bind,
        Outcome.pure_eq, Option.isSome_none, Bool.false_and]
    · have hnot : ¬ P.InList a := by
        rintro ⟨h, xs, hxs, hmem⟩
        exact hrep.outside a ha h xs hxs (List.mem_cons_of_mem h hmem)
      simp [hnot]
  · refine ⟨true, ?_, by simp [ha]⟩
    obtain ⟨h, xs, hxs, hmem⟩ := ha
    have hr := hrep.ring h xs hxs
    obtain ⟨p, -, hp⟩ := hr.prev_mem (List.mem_cons_of_mem h hmem)
    obtain ⟨n, -, hn⟩ := hr.next_mem (List.mem_cons_of_mem h hmem)
    simp only [LinkList.linkConnected, assertPtr, hp, hn, Outcome.ok_bind, Outcome.pure_eq,
      Option.isSome_some, Bool.and_self]

end Rep

/-! ### Runs -/

/-- The loop of `list_foreach` with `prev` in the place of `next`. -/
def listForeachBack (l : Links α) (h : α) (fuel : ℕ) : Outcome Fault (List α) :=
  listForeach l.flip h fuel

/-- In every reachable state the links represent the pool. -/
theorem Reachable.rep {P : Pool α} {l : Links α} (hreach : Reachable P l) : Rep P l := by
  induction hreach with
  | init l => constructor <;> simp [Pool.empty]
  | step _ hadm hrun ih =>
    obtain ⟨l₁, hrun₁, hrep₁⟩ := ih.apply hadm
    rw [hrun] at hrun₁
    obtain ⟨-, rfl⟩ : _ = _ ∧ _ = l₁ := by simpa using hrun₁
    exact hrep₁

/-- **Refinement of the intrusive lists.**  In every reachable state the lists are disjoint and
duplicate-free; the links visit each sequence forwards, and its reverse backwards; `list_empty` and
`link_connected` tell the truth; and every admitted operation runs without a fault, returns what it
returns on the sequences and acts on them as `Pool.apply` says. -/
theorem list_refinement {P : Pool α} {l : Links α} (hreach : Reachable P l) :
    (∀ h xs, P.lists h = some xs → (h :: xs).Nodup ∧
      Outcome.Returns (listForeach l h) xs ∧ Outcome.Returns (listForeachBack l h) xs.reverse ∧
      listEmpty l (some h) = .ok (decide (xs = []))) ∧
    (∀ h₁ h₂ xs ys, P.lists h₁ = some xs → P.lists h₂ = some ys → h₁ ≠ h₂ →
      List.Disjoint (h₁ :: xs) (h₂ :: ys)) ∧
    (∀ a, a ∈ P.loose ∨ P.InList a →
      ∃ b, linkConnected l (some a) = .ok b ∧ (b = true ↔ P.InList a)) ∧
    ∀ op, P.Admits op →
      ∃ l', op.run l = .ok ((P.apply op).1, l') ∧ Reachable (P.apply op).2 l' := by
  have hrep := hreach.rep
  refine ⟨?_, hrep.disjoint, fun a ha => hrep.linkConnected ha, ?_⟩
  · intro h xs hxs
    have hr := hrep.ring h xs hxs
    exact ⟨hr.nodup, listForeach_returns hr, listForeach_returns hr.flip, listEmpty_apply hr⟩
  · intro op hadm
    obtain ⟨l', hrun, -⟩ := hrep.apply hadm
    exact ⟨l', hrun, hreach.step hadm hrun⟩

/-! ### Two lists that exchange links -/

/-- The pool after some operations. -/
def Pool.play (P : Pool α) (ops : List (Op α)) : Pool α := ops.foldl (fun P op => (P.apply op).2) P

/-- Each operation is admitted when its turn comes. -/
def Pool.Plays : Pool α → List (Op α) → Prop
  | _, [] => True
  | P, op :: ops => P.Admits op ∧ Plays (P.apply op).2 ops

theorem Reachable.play {P : Pool α} {l : Links α} {ops : List (Op α)} (h : Reachable P l) (hp : P.Plays ops) :
    ∃ l', Reachable (P.play ops) l' := by
  induction ops generalizing P l with
  | nil => exact ⟨l, h⟩
  | cons op ops ih =>
    obtain ⟨l', hrun, -⟩ := h.rep.apply hp.1
    exact ih (h.step hp.1 hrun) hp.2

omit [DecidableEq α] in
/-- Without an item in any list an address that is no head and not loose is fresh. -/
theorem Pool.fresh_of_nil {P : Pool α} {a : α} (hnil : ∀ h xs, P.lists h = some xs → xs = [])
    (ha : P.lists a = none) (hl : a ∉ P.loose) : P.Fresh a := by
  refine ⟨ha, hl, ?_⟩
  rintro ⟨h, xs, hxs, hmem⟩
  rw [hnil h xs hxs] at hmem
  cases hmem

/-- The heads 0 and 10 and the links 1 to 4 are initialised. -/
def twoHeads : Pool ℕ :=
  Pool.empty.play [.listInit 0, .listInit 10, .linkInit 1, .linkInit 2, .linkInit 3, .linkInit 4]

theorem twoHeads_reachable : ∃ l, Reachable twoHeads l := by
  refine (Reachable.init (⟨fun _ => none, fun _ => none⟩ : Links ℕ)).play ⟨?_, ?_, ?_, ?_, ?_, ?_, trivial⟩
  all_goals
    refine Pool.fresh_of_nil (fun h xs hx => ?_) ?_ ?_
    · simp only [Pool.apply, Pool.setList, Pool.release, Pool.empty, Function.update_apply] at hx
      grind
    · simp [Pool.apply, Pool.setList, Pool.release, Pool.empty]
    · simp [Pool.apply, Pool.setList, Pool.release, Pool.empty]

/-- The first list holds 1, 2 and 3, the second one holds 4. -/
def twoRings : Pool ℕ := twoHeads.play [.append 0 1, .append 0 2, .append 0 3, .append 10 4]

theorem twoRings_reachable : ∃ l, Reachable twoRings l := by
  obtain ⟨l, h⟩ := twoHeads_reachable
  refine h.play ⟨⟨?_, ?_⟩, ⟨?_, ?_⟩, ⟨?_, ?_⟩, ⟨?_, ?_⟩, trivial⟩ <;>
    simp [twoHeads, Pool.play, Pool.apply, Pool.setList, Pool.release, Pool.take, Pool.empty]

/-- **Two lists that exchange links.**  The first list is rotated, its last link is removed and prepended to
the second one, and its first link is popped. -/
theorem list_refinement_twoRings : ∃ l l₁ l₂ l₃ l₄ : Links ℕ, Reachable twoRings l ∧
    Outcome.Returns (listForeach l 0) [1, 2, 3] ∧ Outcome.Returns (listForeach l 10) [4] ∧
    Op.run l (.rotate 0) = .ok (some 1, l₁) ∧ Outcome.Returns (listForeach l₁ 0) [2, 3, 1] ∧
    Op.run l₁ (.remove 3) = .ok (none, l₂) ∧ linkConnected l₂ (some 3) = .ok false ∧
    Op.run l₂ (.prepend 10 3) = .ok (none, l₃) ∧ linkConnected l₃ (some 3) = .ok true ∧
    Op.run l₃ (.pop 0) = .ok (some 2, l₄) ∧ Outcome.Returns (listForeach l₄ 0) [1] ∧
    Outcome.Returns (listForeach l₄ 10) [3, 4] ∧ Outcome.Returns (listForeachBack l₄ 10) [4, 3] ∧
    listEmpty l₄ (some 0) = .ok false := by
  obtain ⟨l, h⟩ := twoRings_reachable
  obtain ⟨hlists, -, -, hop⟩ := list_refinement h
  obtain ⟨l₁, hrun₁, h₁⟩ := hop (.rotate 0) (show twoRings.lists 0 ≠ none by decide)
  obtain ⟨hlists₁, -, -, hop₁⟩ := list_refinement h₁
  obtain ⟨l₂, hrun₂, h₂⟩ := hop₁ (.remove 3) (Or.inr ⟨0, [2, 3, 1], rfl, by decide⟩)
  obtain ⟨hlists₂, -, hconn₂, hop₂⟩ := list_refinement h₂
  obtain ⟨b₂, hb₂, hin₂⟩ := hconn₂ 3 (Or.inl (Set.mem_insert 3 _))
  obtain ⟨l₃, hrun₃, h₃⟩ := hop₂ (.prepend 10 3) ⟨by decide, Set.mem_insert 3 _⟩
  obtain ⟨hlists₃, -, hconn₃, hop₃⟩ := list_refinement h₃
  obtain ⟨b₃, hb₃, hin₃⟩ := hconn₃ 3 (Or.inr ⟨10, [3, 4], rfl, by decide⟩)
  obtain ⟨l₄, hrun₄, h₄⟩ := hop₃ (.pop 0) (Option.some_ne_none [2, 1])
  obtain ⟨hlists₄, -, -, -⟩ := list_refinement h₄
  obtain rfl : b₃ = true := hin₃.mpr ⟨10, [3, 4], rfl, by decide⟩
  obtain rfl : b₂ = false := by
    rw [Bool.eq_false_iff, ne_eq, hin₂]
    rintro ⟨h, xs, hxs, hmem⟩
    -- the removed link is in neither list
    by_cases h0 : h = 0
    · subst h0
      obtain rfl : [2, 1] = xs := Option.some.inj hxs
      simp at hmem
    · by_cases h10 : h = 10
      · subst h10
        obtain rfl : [4] = xs := Option.some.inj hxs
        simp at hmem
      · simp [twoRings, twoHeads, Pool.play, Pool.apply, Pool.setList, Pool.release, Pool.take, Pool.empty,
          Function.update_apply, h0, h10] at hxs
  exact ⟨l, l₁, l₂, l₃, l₄, h, (hlists 0 _ rfl).2.1, (hlists 10 _ rfl).2.1, hrun₁, (hlists₁ 0 _ rfl).2.1,
    hrun₂, hb₂, hrun₃, hb₃, hrun₄, (hlists₄ 0 _ rfl).2.1, (hlists₄ 10 _ rfl).2.1, (hlists₄ 10 _ rfl).2.2.1,
    (hlists₄ 0 _ rfl).2.2.2⟩

end LinkList

end Kalisto
