import Mathlib

/-!
# Circular doubly linked lists

Links are two partial functions, `next` and `prev`.  `Ring l h xs` says that the links of `l` form a
circular list through the head `h` and then through `xs`, in both directions, with no item twice.

The operations are the usual four assignments of an append and the two of an unlink, as functions on
the links (`pushBack`, `unlink`); `Ring.pushBack` and `Ring.unlink` say what they do to the sequence,
and `Ring.congr` that only the links of the head and of the items matter.
-/

universe u

/-- The two links of every item; `none` is a null link. -/
structure Links (α : Type u) where
  next : α → Option α
  prev : α → Option α

namespace Links

variable {α : Type u}

/-- The links lead from `a` through `xs` to `z`, and back. -/
def Seg (l : Links α) : α → List α → α → Prop
  | a, [], z => l.next a = some z ∧ l.prev z = some a
  | a, x :: xs, z => l.next a = some x ∧ l.prev x = some a ∧ Seg l x xs z

/-- The circular list with head `h` and items `xs`. -/
structure Ring (l : Links α) (h : α) (xs : List α) : Prop where
  seg : Seg l h xs h
  nodup : (h :: xs).Nodup

theorem seg_append {l : Links α} {a y z : α} {xs ys : List α} :
    Seg l a (xs ++ y :: ys) z ↔ Seg l a xs y ∧ Seg l y ys z := by
  induction xs generalizing a with
  | nil => simp [Seg, and_assoc]
  | cons x xs ih => simp [Seg, ih, and_assoc]

theorem Seg.congr {l l' : Links α} {a z : α} {xs : List α} (h : Seg l a xs z)
    (hn : ∀ x ∈ a :: xs, l'.next x = l.next x) (hp : ∀ x ∈ xs ++ [z], l'.prev x = l.prev x) :
    Seg l' a xs z := by
  induction xs generalizing a with
  | nil =>
    exact ⟨by rw [hn a (by simp), h.1], by rw [hp z (by simp), h.2]⟩
  | cons x xs ih =>
    obtain ⟨h1, h2, h3⟩ := h
    refine ⟨by rw [hn a (by simp), h1], by rw [hp x (by simp), h2], ih h3 ?_ ?_⟩
    · exact fun y hy => hn y (List.mem_cons_of_mem a hy)
    · exact fun y hy => hp y (List.mem_cons_of_mem x hy)

/-- The circular list depends on the links of the head and the items only. -/
theorem Ring.congr {l l' : Links α} {h : α} {xs : List α} (hr : Ring l h xs)
    (heq : ∀ x ∈ h :: xs, l'.next x = l.next x ∧ l'.prev x = l.prev x) : Ring l' h xs := by
  refine ⟨hr.seg.congr (fun x hx => (heq x hx).1) fun x hx => (heq x ?_).2, hr.nodup⟩
  simp only [List.mem_append, List.mem_cons, List.not_mem_nil, or_false] at hx ⊢
  exact hx.symm

/-- Two segments between the same ends that do not meet the end before are one. -/
theorem Seg.unique {l : Links α} {a z : α} {xs ys : List α} (h : Seg l a xs z) (h' : Seg l a ys z)
    (hx : z ∉ xs) (hy : z ∉ ys) : xs = ys := by
  induction xs generalizing a ys with
  | nil =>
    cases ys with
    | nil => rfl
    | cons y ys =>
      have hzy : z = y := Option.some.inj (h.1.symm.trans h'.1)
      exact absurd (List.mem_cons.mpr (Or.inl hzy)) hy
  | cons x xs ih =>
    cases ys with
    | nil =>
      have hxz : x = z := Option.some.inj (h.1.symm.trans h'.1)
      exact absurd (List.mem_cons.mpr (Or.inl hxz.symm)) hx
    | cons y ys =>
      obtain rfl : x = y := Option.some.inj (h.1.symm.trans h'.1)
      have hrest := ih h.2.2 h'.2.2 (fun hm => hx (List.mem_cons_of_mem x hm))
        fun hm => hy (List.mem_cons_of_mem x hm)
      rw [hrest]

/-- The links of a head hold one list. -/
theorem Ring.unique {l : Links α} {h : α} {xs ys : List α} (hr : Ring l h xs) (hr' : Ring l h ys) :
    xs = ys :=
  hr.seg.unique hr'.seg (List.nodup_cons.mp hr.nodup).1 (List.nodup_cons.mp hr'.nodup).1

/-- Every item and the head have both links, to items or the head. -/
theorem Seg.links {l : Links α} {a z : α} {xs : List α} (h : Seg l a xs z) :
    (∀ x ∈ a :: xs, ∃ y ∈ xs ++ [z], l.next x = some y) ∧
      ∀ x ∈ xs ++ [z], ∃ y ∈ a :: xs, l.prev x = some y := by
  induction xs generalizing a with
  | nil =>
    obtain ⟨h1, h2⟩ := h
    constructor <;> intro x hx <;> simp only [List.mem_cons, List.nil_append, List.not_mem_nil,
      or_false] at hx <;> subst hx
    · exact ⟨z, by simp, h1⟩
    · exact ⟨a, by simp, h2⟩
  | cons w xs ih =>
    obtain ⟨h1, h2, h3⟩ := h
    obtain ⟨ihn, ihp⟩ := ih h3
    constructor
    · intro x hx
      rcases List.mem_cons.mp hx with rfl | hx
      · exact ⟨w, by simp, h1⟩
      · obtain ⟨y, hy, hxy⟩ := ihn x hx
        exact ⟨y, List.mem_cons_of_mem w hy, hxy⟩
    · intro x hx
      rcases List.mem_cons.mp hx with rfl | hx
      · exact ⟨a, by simp, h2⟩
      · obtain ⟨y, hy, hxy⟩ := ihp x hx
        exact ⟨y, List.mem_cons_of_mem a hy, hxy⟩

theorem Ring.next_mem {l : Links α} {h : α} {xs : List α} (hr : Ring l h xs) {x : α}
    (hx : x ∈ h :: xs) : ∃ y ∈ h :: xs, l.next x = some y := by
  obtain ⟨y, hy, hxy⟩ := hr.seg.links.1 x hx
  refine ⟨y, ?_, hxy⟩
  simp only [List.mem_append, List.mem_cons, List.not_mem_nil, or_false] at hy ⊢
  exact hy.symm

theorem Ring.prev_mem {l : Links α} {h : α} {xs : List α} (hr : Ring l h xs) {x : α}
    (hx : x ∈ h :: xs) : ∃ y ∈ h :: xs, l.prev x = some y := by
  refine hr.seg.links.2 x ?_
  simp only [List.mem_append, List.mem_cons, List.not_mem_nil, or_false] at hx ⊢
  exact hx.symm

/-- The first item. -/
theorem Ring.next_head {l : Links α} {h x : α} {xs : List α} (hr : Ring l h (x :: xs)) :
    l.next h = some x := hr.seg.1

/-- An empty list points back to itself. -/
theorem Ring.next_head_nil {l : Links α} {h : α} (hr : Ring l h []) : l.next h = some h := hr.seg.1

/-- The list is empty exactly when the head points to itself. -/
theorem Ring.next_head_eq {l : Links α} {h : α} {xs : List α} (hr : Ring l h xs) :
    l.next h = some h ↔ xs = [] := by
  cases xs with
  | nil => simp [hr.next_head_nil]
  | cons x xs =>
    have hne : x ≠ h := fun hxh => by
      have := hr.nodup
      simp [hxh] at this
    simp [hr.next_head, hne]

/-- The links after item `x`. -/
theorem Ring.next_item {l : Links α} {h x : α} {xs ys : List α} (hr : Ring l h (xs ++ x :: ys)) :
    l.next x = some (ys.headD h) := by
  have hs := (seg_append.mp hr.seg).2
  cases ys with
  | nil => exact hs.1
  | cons y ys => exact hs.1

/-- The item before `x` is another one, or the head. -/
theorem Ring.prev_item_mem {l : Links α} {h x p : α} {xs ys : List α}
    (hr : Ring l h (xs ++ x :: ys)) (hp : l.prev x = some p) : p ∈ h :: xs ∧ p ≠ x := by
  obtain ⟨q, hq, hxq⟩ := (seg_append.mp hr.seg).1.links.2 x (by simp)
  obtain rfl : q = p := by simpa [hxq] using hp
  refine ⟨hq, ?_⟩
  have hnd := hr.nodup
  rw [← List.cons_append, List.nodup_append] at hnd
  exact hnd.2.2 q hq x (by simp)

/-- The item after `x` is another one, or the head. -/
theorem Ring.next_item_mem {l : Links α} {h x n : α} {xs ys : List α}
    (hr : Ring l h (xs ++ x :: ys)) (hn : l.next x = some n) : n ∈ h :: ys ∧ n ≠ x := by
  obtain ⟨q, hq, hxq⟩ := (seg_append.mp hr.seg).2.links.1 x (by simp)
  obtain rfl : q = n := by simpa [hxq] using hn
  have hnd := hr.nodup
  rw [← List.cons_append, List.nodup_append] at hnd
  obtain ⟨-, hnd2, hdis⟩ := hnd
  rcases List.mem_append.mp hq with hq | hq
  · exact ⟨List.mem_cons_of_mem h hq, fun heq => (List.nodup_cons.mp hnd2).1 (heq ▸ hq)⟩
  · rw [List.mem_singleton.mp hq]
    exact ⟨by simp, hdis h (by simp) x (by simp)⟩

/-! ### Both directions -/

/-- The links with the directions exchanged. -/
def flip (l : Links α) : Links α := ⟨l.prev, l.next⟩

theorem Seg.flip {l : Links α} {a z : α} {xs : List α} (h : Seg l a xs z) :
    Seg l.flip z xs.reverse a := by
  induction xs generalizing a with
  | nil => exact ⟨h.2, h.1⟩
  | cons x xs ih =>
    obtain ⟨h1, h2, h3⟩ := h
    rw [List.reverse_cons, seg_append]
    exact ⟨ih h3, h2, h1⟩

/-- Read backwards, the circular list is the reversed one. -/
theorem Ring.flip {l : Links α} {h : α} {xs : List α} (hr : Ring l h xs) :
    Ring l.flip h xs.reverse := by
  refine ⟨hr.seg.flip, ?_⟩
  have hnd := hr.nodup
  rw [List.nodup_cons] at hnd ⊢
  exact ⟨by simpa using hnd.1, List.nodup_reverse.mpr hnd.2⟩

variable [DecidableEq α]

/-- Store a forward link. -/
def setNext (l : Links α) (a : α) (v : Option α) : Links α :=
  { l with next := Function.update l.next a v }

/-- Store a backward link. -/
def setPrev (l : Links α) (a : α) (v : Option α) : Links α :=
  { l with prev := Function.update l.prev a v }

@[simp] theorem setNext_next (l : Links α) (a b : α) (v : Option α) :
    (l.setNext a v).next b = if b = a then v else l.next b := by
  simp [setNext, Function.update_apply]

@[simp] theorem setNext_prev (l : Links α) (a b : α) (v : Option α) :
    (l.setNext a v).prev b = l.prev b := rfl

@[simp] theorem setPrev_prev (l : Links α) (a b : α) (v : Option α) :
    (l.setPrev a v).prev b = if b = a then v else l.prev b := by
  simp [setPrev, Function.update_apply]

@[simp] theorem setPrev_next (l : Links α) (a b : α) (v : Option α) :
    (l.setPrev a v).next b = l.next b := rfl

/-! ### Appending -/

/-- The four assignments of an append at the back, when the last item is `p`. -/
def pushBack (l : Links α) (h p x : α) : Links α :=
  (((l.setNext x (some h)).setPrev x (some p)).setNext p (some x)).setPrev h (some x)

/-- **Appending.** -/
theorem Ring.pushBack {l : Links α} {h p x : α} {xs : List α} (hr : Ring l h xs)
    (hp : l.prev h = some p) (hx : x ∉ h :: xs) : Ring (l.pushBack h p x) h (xs ++ [x]) := by
  obtain ⟨hseg, hnd⟩ := hr
  have hnd' : (h :: (xs ++ [x])).Nodup := by
    rw [← List.cons_append, List.nodup_append]
    refine ⟨hnd, by simp, ?_⟩
    intro a ha b hb
    rw [List.mem_singleton.mp hb]
    exact ne_of_mem_of_not_mem ha hx
  refine ⟨?_, hnd'⟩
  simp only [List.mem_cons, not_or] at hx
  obtain ⟨hxh, hxs⟩ := hx
  rcases List.eq_nil_or_concat' xs with rfl | ⟨ys, w, rfl⟩
  · -- the list was empty: the last item is the head
    obtain rfl : h = p := by simpa using hseg.2.symm.trans hp
    simp [Seg, Links.pushBack, hxh]
  · obtain ⟨hs1, hs2⟩ := seg_append.mp hseg
    obtain rfl : w = p := by simpa using hs2.2.symm.trans hp
    simp only [List.mem_append, List.mem_singleton, not_or] at hxs
    obtain ⟨hxys, hxw⟩ := hxs
    simp only [List.nodup_cons, List.mem_append, List.mem_singleton, not_or, List.nodup_append]
      at hnd
    obtain ⟨⟨hhys, hhw⟩, -, -, hysw⟩ := hnd
    rw [List.append_assoc, List.singleton_append, seg_append]
    refine ⟨hs1.congr (fun y hy => ?_) fun y hy => ?_, ?_⟩
    · have hyw : y ≠ w := by
        rcases List.mem_cons.mp hy with rfl | hy
        · exact hhw
        · exact hysw y hy w rfl
      have hyx : y ≠ x := by
        rcases List.mem_cons.mp hy with rfl | hy
        · exact Ne.symm hxh
        · exact ne_of_mem_of_not_mem hy hxys
      simp [Links.pushBack, hyw, hyx]
    · have hyh : y ≠ h := by
        rcases List.mem_append.mp hy with hy | hy
        · exact ne_of_mem_of_not_mem hy hhys
        · rw [List.mem_singleton.mp hy]
          exact Ne.symm hhw
      have hyx : y ≠ x := by
        rcases List.mem_append.mp hy with hy | hy
        · exact ne_of_mem_of_not_mem hy hxys
        · rw [List.mem_singleton.mp hy]
          exact Ne.symm hxw
      simp [Links.pushBack, hyh, hyx]
    · simp [Seg, Links.pushBack, hxh, hxw]

/-! ### Prepending -/

/-- The four assignments of an insertion at the front, when the first item is `n`. -/
def pushFront (l : Links α) (h n x : α) : Links α :=
  (((l.setNext x (some n)).setPrev x (some h)).setPrev n (some x)).setNext h (some x)

/-- **Prepending** is appending, read backwards. -/
theorem Ring.pushFront {l : Links α} {h n x : α} {xs : List α} (hr : Ring l h xs)
    (hn : l.next h = some n) (hx : x ∉ h :: xs) : Ring (l.pushFront h n x) h (x :: xs) := by
  have hback := (hr.flip.pushBack (p := n) (x := x) hn (by simpa using hx)).flip
  simpa [Links.flip, Links.pushFront, Links.pushBack, Links.setNext, Links.setPrev] using hback

/-! ### Unlinking -/

/-- The two assignments that take an item between `p` and `n` out of the list. -/
def unlink (l : Links α) (p n : α) : Links α := (l.setPrev n (some p)).setNext p (some n)

/-- **Unlinking.** -/
theorem Ring.unlink {l : Links α} {h p n x : α} {xs ys : List α} (hr : Ring l h (xs ++ x :: ys))
    (hp : l.prev x = some p) (hn : l.next x = some n) : Ring (l.unlink p n) h (xs ++ ys) := by
  obtain ⟨hseg, hnd⟩ := hr
  obtain ⟨hs1, hs2⟩ := seg_append.mp hseg
  have hnd' : (h :: (xs ++ ys)).Nodup := by
    refine hnd.sublist (List.Sublist.cons_cons h ?_)
    exact (List.sublist_cons_self x ys).append_left xs
  refine ⟨?_, hnd'⟩
  -- the neighbours of `x` are the last of `h, xs` and the first of `ys, h`
  have hfront : ∃ us, h :: xs = us ++ [p] ∧ (us = [] ∧ p = h ∧ xs = [] ∨
      ∃ vs, us = h :: vs ∧ xs = vs ++ [p] ∧ Seg l h vs p) := by
    rcases List.eq_nil_or_concat' xs with rfl | ⟨vs, w, rfl⟩
    · obtain rfl : h = p := by simpa using hs1.2.symm.trans hp
      exact ⟨[], rfl, Or.inl ⟨rfl, rfl, rfl⟩⟩
    · obtain ⟨h1, h2⟩ := seg_append.mp hs1
      obtain rfl : w = p := by simpa using h2.2.symm.trans hp
      exact ⟨h :: vs, rfl, Or.inr ⟨vs, rfl, rfl, h1⟩⟩
  have hback : (ys = [] ∧ n = h) ∨ ∃ zs, ys = n :: zs ∧ Seg l n zs h := by
    cases ys with
    | nil =>
      obtain rfl : h = n := by simpa using hs2.1.symm.trans hn
      exact Or.inl ⟨rfl, rfl⟩
    | cons y zs =>
      obtain rfl : y = n := by simpa using hs2.1.symm.trans hn
      exact Or.inr ⟨zs, rfl, hs2.2.2⟩
  obtain ⟨us, hus, hcase⟩ := hfront
  -- the rest of the list is untouched
  have hlinkp : (l.unlink p n).next p = some n := by simp [Links.unlink]
  have hlinkn : (l.unlink p n).prev n = some p := by simp [Links.unlink]
  have hother : ∀ y, (y ≠ p → (l.unlink p n).next y = l.next y) ∧
      (y ≠ n → (l.unlink p n).prev y = l.prev y) := by
    intro y
    exact ⟨fun h => by simp [Links.unlink, h], fun h => by simp [Links.unlink, h]⟩
  -- the part after `n`
  have hafter : ∀ zs, ys = n :: zs → Seg l n zs h → Seg (l.unlink p n) n zs h := by
    intro zs hys hz
    subst hys
    refine hz.congr (fun y hy => (hother y).1 ?_) fun y hy => (hother y).2 ?_
    · rintro rfl
      have : y ∈ h :: xs := by rw [hus]; simp
      simp only [List.nodup_cons, List.nodup_append, List.mem_append, List.mem_cons] at hnd'
      grind
    · rintro rfl
      simp only [List.nodup_cons, List.nodup_append, List.mem_append, List.mem_cons] at hnd' hy
      grind
  rcases hcase with ⟨-, rfl, rfl⟩ | ⟨vs, -, rfl, hv⟩
  · rcases hback with ⟨rfl, rfl⟩ | ⟨zs, rfl, hz⟩
    · exact ⟨hlinkp, hlinkn⟩
    · exact ⟨hlinkp, hlinkn, hafter zs rfl hz⟩
  · have hbefore : Seg (l.unlink p n) h vs p := by
      refine hv.congr (fun y hy => (hother y).1 ?_) fun y hy => (hother y).2 ?_
      · rintro rfl
        simp only [List.nodup_cons, List.nodup_append, List.mem_append, List.mem_cons]
          at hnd' hy
        grind
      · rintro rfl
        rcases hback with ⟨rfl, rfl⟩ | ⟨zs, rfl, -⟩ <;>
          simp only [List.nodup_cons, List.nodup_append, List.mem_append, List.mem_cons]
            at hnd' hy <;> grind
    rcases hback with ⟨rfl, rfl⟩ | ⟨zs, rfl, hz⟩
    · rw [List.append_nil, seg_append]
      exact ⟨hbefore, hlinkp, hlinkn⟩
    · rw [List.append_assoc, List.singleton_append, seg_append]
      exact ⟨hbefore, hlinkp, hlinkn, hafter zs rfl hz⟩

end Links
