import Kalisto.Mm.MallocSteps

/-!
# The list of heaps in memory

`list_append` and `list_remove` of `adt/list.h` on the byte memory of the heap.  The links of the list
items do not overlap (`Spread`), so the stores of the code are the updates of the abstract links, and
the two results are those of `Links.Ring`:

* `listAppend_spec` — the item is the last one of the list;
* `listRemove_spec` — the item is gone from the list.

Both change only the eight link bytes of items.
-/

namespace Kalisto

namespace HeapM

/-- List items: aligned, not `NULL`, inside the address space, and eight bytes apart. -/
structure Spread (items : List ℕ) : Prop where
  item : ∀ a ∈ items, a % 4 = 0 ∧ 0 < a ∧ a + 8 ≤ 2 ^ 32
  apart : ∀ a ∈ items, ∀ b ∈ items, a = b ∨ a + 8 ≤ b ∨ b + 8 ≤ a

theorem Spread.subset {items items' : List ℕ} (h : Spread items) (hs : ∀ a ∈ items', a ∈ items) :
    Spread items' :=
  ⟨fun a ha => h.item a (hs a ha), fun a ha b hb => h.apart a (hs a ha) b (hs b hb)⟩

/-- Outside the link bytes of the items. -/
def OutsideLinks (items : List ℕ) (x : ℕ) : Prop := ∀ a ∈ items, x < a ∨ a + 8 ≤ x

/-! ### Stores into links -/

theorem ptr_of_pos {v : ℕ} (h : 0 < v) : ptr v = some v := by
  rw [ptr, if_neg (by omega)]

/-- Storing a forward link. -/
theorem linksOf_setNext {m : Memory} {items : List ℕ} (hs : Spread items) {a v x : ℕ}
    (ha : a ∈ items) (hx : x ∈ items) (hv : 0 < v) (hv' : v < 2 ^ 32) :
    (linksOf (m.setWord (a + 4) v)).next x = ((linksOf m).setNext a (some v)).next x ∧
      (linksOf (m.setWord (a + 4) v)).prev x = ((linksOf m).setNext a (some v)).prev x := by
  obtain ⟨h1, h2, h3⟩ := hs.item a ha
  obtain ⟨h4, h5, h6⟩ := hs.item x hx
  have hap := hs.apart a ha x hx
  constructor
  · rw [Links.setNext_next]
    split
    · rename_i hxa
      subst hxa
      simp only [linksOf, Memory.word_setWord_self, Nat.mod_eq_of_lt hv', ptr_of_pos hv]
    · simp only [linksOf]
      rw [Memory.word_setWord_of_ne (by omega) (by omega) (by omega)]
  · simp only [linksOf, Links.setNext_prev]
    rw [Memory.word_setWord_of_ne (by omega) (by omega) (by omega)]

/-- Storing a backward link. -/
theorem linksOf_setPrev {m : Memory} {items : List ℕ} (hs : Spread items) {a v x : ℕ}
    (ha : a ∈ items) (hx : x ∈ items) (hv : 0 < v) (hv' : v < 2 ^ 32) :
    (linksOf (m.setWord a v)).next x = ((linksOf m).setPrev a (some v)).next x ∧
      (linksOf (m.setWord a v)).prev x = ((linksOf m).setPrev a (some v)).prev x := by
  obtain ⟨h1, h2, h3⟩ := hs.item a ha
  obtain ⟨h4, h5, h6⟩ := hs.item x hx
  have hap := hs.apart a ha x hx
  constructor
  · simp only [linksOf, Links.setPrev_next]
    rw [Memory.word_setWord_of_ne (by omega) (by omega) (by omega)]
  · rw [Links.setPrev_prev]
    split
    · rename_i hxa
      subst hxa
      simp only [linksOf, Memory.word_setWord_self, Nat.mod_eq_of_lt hv', ptr_of_pos hv]
    · simp only [linksOf]
      rw [Memory.word_setWord_of_ne (by omega) (by omega) (by omega)]

/-- Two link structures that agree on the items. -/
def SameOn (items : List ℕ) (l l' : Links ℕ) : Prop :=
  ∀ x ∈ items, l.next x = l'.next x ∧ l.prev x = l'.prev x

theorem SameOn.setNext {items : List ℕ} {l l' : Links ℕ} (h : SameOn items l l') (a : ℕ)
    (v : Option ℕ) : SameOn items (l.setNext a v) (l'.setNext a v) := by
  intro x hx
  obtain ⟨h1, h2⟩ := h x hx
  simp [h1, h2]

theorem SameOn.setPrev {items : List ℕ} {l l' : Links ℕ} (h : SameOn items l l') (a : ℕ)
    (v : Option ℕ) : SameOn items (l.setPrev a v) (l'.setPrev a v) := by
  intro x hx
  obtain ⟨h1, h2⟩ := h x hx
  simp [h1, h2]

theorem SameOn.trans {items : List ℕ} {l l' l'' : Links ℕ} (h : SameOn items l l')
    (h' : SameOn items l' l'') : SameOn items l l'' :=
  fun x hx => ⟨(h x hx).1.trans (h' x hx).1, (h x hx).2.trans (h' x hx).2⟩

theorem sameOn_setNext {m : Memory} {items : List ℕ} (hs : Spread items) {a v : ℕ}
    (ha : a ∈ items) (hv : v ∈ items) :
    SameOn items (linksOf (m.setWord (a + 4) v)) ((linksOf m).setNext a (some v)) := by
  obtain ⟨-, h1, h2⟩ := hs.item v hv
  exact fun x hx => linksOf_setNext hs ha hx h1 (by omega)

theorem sameOn_setPrev {m : Memory} {items : List ℕ} (hs : Spread items) {a v : ℕ}
    (ha : a ∈ items) (hv : v ∈ items) :
    SameOn items (linksOf (m.setWord a v)) ((linksOf m).setPrev a (some v)) := by
  obtain ⟨-, h1, h2⟩ := hs.item v hv
  exact fun x hx => linksOf_setPrev hs ha hx h1 (by omega)

/-! ### `list_append` -/

/-- The memory after `list_append`, when the last item is `p`. -/
def appendMem (m : Memory) (list p link : ℕ) : Memory :=
  (((m.setWord (link + 4) list).setWord link p).setWord (p + 4) link).setWord list link

theorem linkInit_apply {link : ℕ} (h0 : 0 < link) (h4 : link % 4 = 0) (hlt : link + 8 ≤ 2 ^ 32)
    (s : HeapState) :
    linkInit link s =
      .ok ((), { s with mem := (s.mem.setWord link 0).setWord (link + 4) 0 }) := by
  have hne : (link != 0) = true := by simp; omega
  simp only [linkInit, bind_apply, hne, assert_true, Outcome.ok_bind,
    store_apply (show link + 0 < 2 ^ 32 by omega) (show (link + 0) % 4 = 0 by omega),
    store_apply (show link + 4 < 2 ^ 32 by omega) (show (link + 4) % 4 = 0 by omega), Nat.add_zero]

/-- **`list_append`.** -/
theorem listAppend_spec {s : HeapState} {list link : ℕ} {xs : List ℕ}
    (hr : Links.Ring (linksOf s.mem) list xs) (hs : Spread (link :: list :: xs))
    (hlink : link ∉ list :: xs) :
    ∃ m', listAppend list link s = .ok ((), { s with mem := m' }) ∧
      Links.Ring (linksOf m') list (xs ++ [link]) ∧
      ∀ x, OutsideLinks (link :: list :: xs) x → m' x = s.mem x := by
  obtain ⟨p, hp, hprev⟩ := hr.prev_mem (x := list) (by simp)
  have hpm : p ∈ link :: list :: xs := List.mem_cons_of_mem _ hp
  have hlm : list ∈ link :: list :: xs := by simp
  have hkm : link ∈ link :: list :: xs := by simp
  obtain ⟨hl1, hl2, hl3⟩ := hs.item list hlm
  obtain ⟨hk1, hk2, hk3⟩ := hs.item link hkm
  obtain ⟨hp1, hp2, hp3⟩ := hs.item p hpm
  have hword : s.mem.word list = p := (ptr_eq_some.mp hprev).1
  have hne : link ≠ list := fun h => hlink (by simp [h])
  have hnp : link ≠ p := fun h => hlink (h ▸ hp)
  have hap := hs.apart link hkm list hlm
  refine ⟨appendMem s.mem list p link, ?_, ?_, ?_⟩
  · have h1 : (s.mem.setWord (link + 4) list).word list = p := by
      rw [Memory.word_setWord_of_ne (by omega) (by omega) (by omega), hword]
    have h2 : ((s.mem.setWord (link + 4) list).setWord link p).word list = p := by
      rw [Memory.word_setWord_of_ne (by omega) (by omega) (by omega), h1]
    have hn1 : (list != 0) = true := by simp; omega
    have hn2 : (link != 0) = true := by simp; omega
    simp only [listAppend, bind_apply, hn1, hn2, assert_true, Outcome.ok_bind,
      store_apply (show link + 4 < 2 ^ 32 by omega) (show (link + 4) % 4 = 0 by omega),
      load_apply (show list + 0 < 2 ^ 32 by omega) (show (list + 0) % 4 = 0 by omega),
      store_apply (show link + 0 < 2 ^ 32 by omega) (show (link + 0) % 4 = 0 by omega),
      Nat.add_zero, h1, h2,
      store_apply (show p + 4 < 2 ^ 32 by omega) (show (p + 4) % 4 = 0 by omega),
      store_apply (show list + 0 < 2 ^ 32 by omega) (show (list + 0) % 4 = 0 by omega), appendMem]
  · have hsame : SameOn (link :: list :: xs) (linksOf (appendMem s.mem list p link))
        ((linksOf s.mem).pushBack list p link) :=
      (sameOn_setPrev hs hlm hkm).trans (SameOn.setPrev ((sameOn_setNext hs hpm hkm).trans
        (SameOn.setNext ((sameOn_setPrev hs hkm hpm).trans
          (SameOn.setPrev (sameOn_setNext hs hkm hlm) _ _)) _ _)) _ _)
    refine (hr.pushBack hprev hlink).congr fun x hx => hsame x ?_
    simp only [List.mem_cons, List.mem_append, List.not_mem_nil, or_false] at hx ⊢
    tauto
  · intro x hx
    have hxl := hx list hlm
    have hxk := hx link hkm
    have hxp := hx p hpm
    simp only [appendMem]
    rw [Memory.setWord_of_outside (by omega), Memory.setWord_of_outside (by omega),
      Memory.setWord_of_outside (by omega), Memory.setWord_of_outside (by omega)]

/-! ### `list_remove` -/

/-- The memory after `list_remove` of an item between `p` and `n`. -/
def removeMem (m : Memory) (p n link : ℕ) : Memory :=
  (((m.setWord n p).setWord (p + 4) n).setWord link 0).setWord (link + 4) 0

/-- **`list_remove`.** -/
theorem listRemove_spec {s : HeapState} {list link : ℕ} {xs ys : List ℕ}
    (hr : Links.Ring (linksOf s.mem) list (xs ++ link :: ys))
    (hs : Spread (list :: (xs ++ link :: ys))) :
    ∃ m', listRemove link s = .ok ((), { s with mem := m' }) ∧
      Links.Ring (linksOf m') list (xs ++ ys) ∧
      ∀ x, OutsideLinks (list :: (xs ++ link :: ys)) x → m' x = s.mem x := by
  have hkm : link ∈ list :: (xs ++ link :: ys) := by simp
  obtain ⟨p, hpm, hprev⟩ := hr.prev_mem hkm
  obtain ⟨n, hnm, hnext⟩ := hr.next_mem hkm
  obtain ⟨hk1, hk2, hk3⟩ := hs.item link hkm
  obtain ⟨hp1, hp2, hp3⟩ := hs.item p hpm
  obtain ⟨hn1, hn2, hn3⟩ := hs.item n hnm
  have hwp : s.mem.word link = p := (ptr_eq_some.mp hprev).1
  have hwn : s.mem.word (link + 4) = n := (ptr_eq_some.mp hnext).1
  have hnotmem : link ∉ list :: (xs ++ ys) := by
    have hnd := hr.nodup
    rw [← List.cons_append, List.nodup_middle, List.nodup_cons] at hnd
    exact hnd.1
  have hpk : p ≠ link := (hr.prev_item_mem hprev).2
  have hnk : n ≠ link := (hr.next_item_mem hnext).2
  have hap1 := hs.apart link hkm p hpm
  have hap2 := hs.apart link hkm n hnm
  refine ⟨removeMem s.mem p n link, ?_, ?_, ?_⟩
  · have h1 : (s.mem.setWord n p).word link = p := by
      rw [Memory.word_setWord_of_ne (by omega) (by omega) (by omega), hwp]
    have h2 : (s.mem.setWord n p).word (link + 4) = n := by
      rw [Memory.word_setWord_of_ne (by omega) (by omega) (by omega), hwn]
    have hz : (link != 0) = true := by simp; omega
    have hzn : (n != 0) = true := by simp; omega
    have hzp : p ≠ 0 := by omega
    have hconn : linkConnected link s = .ok (true, s) := by
      simp only [linkConnected, bind_apply, hz, assert_true, Outcome.ok_bind,
        load_apply (show link + 0 < 2 ^ 32 by omega) (show (link + 0) % 4 = 0 by omega),
        load_apply (show link + 4 < 2 ^ 32 by omega) (show (link + 4) % 4 = 0 by omega),
        Nat.add_zero, hwp, hwn, hzp, ne_eq, not_false_eq_true, if_true, hzn, pure_apply]
    simp only [listRemove, bind_apply, hz, assert_true, Outcome.ok_bind, hconn, if_true,
      load_apply (show link + 0 < 2 ^ 32 by omega) (show (link + 0) % 4 = 0 by omega),
      load_apply (show link + 4 < 2 ^ 32 by omega) (show (link + 4) % 4 = 0 by omega),
      Nat.add_zero, hwp, hwn,
      store_apply (show n + 0 < 2 ^ 32 by omega) (show (n + 0) % 4 = 0 by omega), h1, h2,
      store_apply (show p + 4 < 2 ^ 32 by omega) (show (p + 4) % 4 = 0 by omega),
      linkInit_apply hk2 hk1 hk3, removeMem]
  · have hsame : SameOn (list :: (xs ++ link :: ys))
        (linksOf ((s.mem.setWord n p).setWord (p + 4) n)) ((linksOf s.mem).unlink p n) :=
      (sameOn_setNext hs hpm hnm).trans (SameOn.setNext (sameOn_setPrev hs hnm hpm) _ _)
    refine (hr.unlink hprev hnext).congr fun x hx => ?_
    have hxm : x ∈ list :: (xs ++ link :: ys) := by
      simp only [List.mem_cons, List.mem_append] at hx ⊢
      tauto
    have hxk : x ≠ link := ne_of_mem_of_not_mem hx hnotmem
    have hapx := hs.apart link hkm x hxm
    obtain ⟨hx1, hx2⟩ := hsame x hxm
    rw [← hx1, ← hx2]
    refine linksOf_congr fun y h1 h2 => ?_
    simp only [removeMem]
    rw [Memory.setWord_of_outside (by omega), Memory.setWord_of_outside (by omega)]
  · intro x hx
    have hxp := hx p hpm
    have hxk := hx link hkm
    have hxn := hx n hnm
    simp only [removeMem]
    rw [Memory.setWord_of_outside (by omega), Memory.setWord_of_outside (by omega),
      Memory.setWord_of_outside (by omega), Memory.setWord_of_outside (by omega)]

end HeapM

end Kalisto
