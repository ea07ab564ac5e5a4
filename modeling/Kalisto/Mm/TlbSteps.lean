import Kalisto.Mm.Tlb

/-!
# What the TLB code writes

The effect of each function of `mm/tlb.c` on the TLB, in terms of the two fields of EntryHi: the
page pair (`vpn2Of`) and the address space identifier (`asidOf`).

Field updates are all of one form, `(old & ~mask) | (new & mask)`; `mux_and` and `mux_and_disjoint`
say what such a value has under its own mask and under a disjoint one.  On top of them:

* `tlbStoreRandom_tlb`, `tlbStoreIndexed_spec` — the entry a handler writes;
* `tlbFlush_spec` — after `tlb_flush` no entry of the current address space answers for the page
  with a valid half, and every other entry is as before.
-/

namespace Kalisto

/-! ### Fields of a word -/

theorem mux_and (e v mask : Word) : ((e &&& ~~~mask) ||| (v &&& mask)) &&& mask = v &&& mask := by
  apply BitVec.eq_of_getLsbD_eq
  intro i hi
  simp only [BitVec.getLsbD_and, BitVec.getLsbD_or, BitVec.getLsbD_not, hi, decide_true,
    Bool.true_and]
  cases e.getLsbD i <;> cases v.getLsbD i <;> cases mask.getLsbD i <;> rfl

theorem mux_and_disjoint {mask mask' : Word} (h : mask &&& mask' = 0) (e v : Word) :
    ((e &&& ~~~mask) ||| (v &&& mask)) &&& mask' = e &&& mask' := by
  apply BitVec.eq_of_getLsbD_eq
  intro i hi
  have hb : (mask.getLsbD i && mask'.getLsbD i) = false := by
    rw [← BitVec.getLsbD_and, h]
    simp
  simp only [BitVec.getLsbD_and, BitVec.getLsbD_or, BitVec.getLsbD_not, hi, decide_true,
    Bool.true_and]
  revert hb
  cases e.getLsbD i <;> cases v.getLsbD i <;> cases mask.getLsbD i <;>
    cases mask'.getLsbD i <;> simp

/-- The page pair field of EntryHi, in place. -/
def vpn2Of (w : Word) : Word := w &&& entryhiVpn2Mask

/-- The address space identifier field of EntryHi, in place. -/
def asidOf (w : Word) : Word := w &&& entryhiAsidMask

theorem vpn2Mask_eq : entryhiVpn2Mask = BitVec.allOnes 32 <<< 13 := by decide

theorem vpn2Of_toNat (w : Word) : (vpn2Of w).toNat = w.toNat / 8192 * 8192 := by
  rw [vpn2Of, vpn2Mask_eq, and_allOnes_shiftLeft]
  have hw := w.isLt
  simp only [BitVec.toNat_shiftLeft, BitVec.toNat_ushiftRight, Nat.shiftLeft_eq,
    Nat.shiftRight_eq_div_pow]
  omega

theorem entryPair_toNat (vpn : Word) : (Cpu.tlbEntryPair vpn).toNat = vpn.toNat % 2 := by
  have h1 : BitVec.toNat (1 : Word) = 2 ^ 1 - 1 := rfl
  rw [Cpu.tlbEntryPair, BitVec.toNat_and, h1, Nat.and_two_pow_sub_one_eq_mod]

/-- Pages that use different halves: one of them is the even one. -/
theorem entryPair_zero_iff_of_ne {u v : Word}
    (h : Cpu.tlbEntryPair u ≠ Cpu.tlbEntryPair v) :
    Cpu.tlbEntryPair u = 0 ↔ Cpu.tlbEntryPair v ≠ 0 := by
  have hu := entryPair_toNat u
  have hv := entryPair_toNat v
  bv_omega

/-- The page pair of a page number. -/
def pairOf (vpn : Word) : Word := vpn2Of (vpn <<< pageWidth)

theorem pairOf_toNat {vpn : Word} (h : vpn.toNat < 2 ^ 20) :
    (pairOf vpn).toNat = vpn.toNat / 2 * 8192 := by
  rw [pairOf, vpn2Of_toNat, toNat_shiftLeft_page]
  omega

/-- A page number is its pair and its half. -/
theorem page_eq_of_pair {u v : Word} (hu : u.toNat < 2 ^ 20) (hv : v.toNat < 2 ^ 20)
    (hpair : pairOf u = pairOf v) (hhalf : Cpu.tlbEntryPair u = Cpu.tlbEntryPair v) : u = v := by
  apply BitVec.eq_of_toNat_eq
  have h1 := congrArg BitVec.toNat hpair
  have h2 := congrArg BitVec.toNat hhalf
  rw [pairOf_toNat hu, pairOf_toNat hv] at h1
  rw [entryPair_toNat, entryPair_toNat] at h2
  omega

theorem pairOf_shiftRight (virt : Word) : pairOf (virt >>> pageWidth) = vpn2Of virt := by
  apply BitVec.eq_of_toNat_eq
  have hv := virt.isLt
  have hp := toNat_shiftRight_page virt
  rw [pairOf_toNat (by omega), vpn2Of_toNat, hp]
  omega

theorem vpn2Of_registers (w : Word) :
    vpn2Of (w &&& (entryhiVpn2Mask ||| entryhiAsidMask)) = vpn2Of w := by
  have h : (entryhiVpn2Mask ||| entryhiAsidMask) &&& entryhiVpn2Mask = entryhiVpn2Mask := by decide
  rw [vpn2Of, BitVec.and_assoc, h, vpn2Of]

theorem asidOf_registers (w : Word) :
    asidOf (w &&& (entryhiVpn2Mask ||| entryhiAsidMask)) = asidOf w := by
  have h : (entryhiVpn2Mask ||| entryhiAsidMask) &&& entryhiAsidMask = entryhiAsidMask := by decide
  rw [asidOf, BitVec.and_assoc, h, asidOf]

theorem vpn2Of_flushProbe (hi addr : Word) : vpn2Of (Cpu.flushProbe hi addr) = vpn2Of addr := by
  have hshift : (addr >>> pageWidth >>> 1) <<< entryhiVpn2Shift = addr &&& entryhiVpn2Mask := by
    rw [vpn2Mask_eq, and_allOnes_shiftLeft, ← BitVec.shiftRight_add]
    rfl
  rw [Cpu.flushProbe, hshift, vpn2Of, mux_and, vpn2Of]

theorem asidOf_flushProbe (hi addr : Word) : asidOf (Cpu.flushProbe hi addr) = asidOf hi := by
  have hshift : (addr >>> pageWidth >>> 1) <<< entryhiVpn2Shift = addr &&& entryhiVpn2Mask := by
    rw [vpn2Mask_eq, and_allOnes_shiftLeft, ← BitVec.shiftRight_add]
    rfl
  rw [Cpu.flushProbe, hshift, asidOf, mux_and_disjoint (by decide), asidOf]

/-- `CP0_ENTRYLO0_PFN`, `CP0_ENTRYLO1_PFN`. -/
def entryloPfn (lo : Word) : Word := (lo &&& 0x3fffffc0#32) >>> entryloPfnShift

/-- A half is valid. -/
def entryloValid (lo : Word) : Prop := lo &&& entryloVMask ≠ 0

theorem not_entryloValid_zero : ¬ entryloValid 0 := by simp [entryloValid]

theorem entryloOf_toNat {pfn : Word} (h : pfn.toNat < 2 ^ 24) :
    (Cpu.entryloOf pfn).toNat = pfn.toNat * 64 + 6 := by
  have hor : Cpu.entryloOf pfn = pfn <<< 6 ||| 6#32 := by
    rw [Cpu.entryloOf, BitVec.or_assoc]
    rfl
  have hsh : (pfn <<< 6).toNat = pfn.toNat <<< 6 := by
    rw [BitVec.toNat_shiftLeft, Nat.shiftLeft_eq, Nat.mod_eq_of_lt (by omega)]
  rw [hor, BitVec.toNat_or, hsh, show (6#32).toNat = 6 from rfl,
    ← Nat.shiftLeft_add_eq_or_of_lt (by decide), Nat.shiftLeft_eq]

/-- The frame number written is the one read back. -/
theorem entryloPfn_entryloOf {pfn : Word} (h : pfn.toNat < 2 ^ 24) :
    entryloPfn (Cpu.entryloOf pfn) = pfn := by
  apply BitVec.eq_of_toNat_eq
  have hmask : (0x3fffffc0#32).toNat >>> 6 = 2 ^ 24 - 1 := rfl
  rw [entryloPfn, entryloPfnShift, BitVec.toNat_ushiftRight, BitVec.toNat_and,
    Nat.shiftRight_and_distrib, hmask, Nat.and_two_pow_sub_one_eq_mod, entryloOf_toNat h,
    Nat.shiftRight_eq_div_pow]
  omega

theorem entryloOf_global (pfn : Word) : Cpu.entryloOf pfn &&& entryloGMask = 0 := by
  apply BitVec.eq_of_getLsbD_eq
  intro i hi
  rw [Cpu.entryloOf, BitVec.or_assoc]
  simp only [BitVec.getLsbD_and, BitVec.getLsbD_or, BitVec.getLsbD_shiftLeft, entryloPfnShift]
  interval_cases i <;> simp [entryloDMask, entryloVMask, entryloGMask]

namespace Cpu

/-! ### Probing -/

/-- No entry is global. -/
def NoGlobal (c : Cpu) : Prop := ∀ i, (c.tlb i).lo0 &&& entryloGMask = 0

/-- The address spaces in use have at most one entry for each page pair. -/
def UniqueMatch (c : Cpu) : Prop :=
  ∀ i j, asidOf (c.tlb i).hi ≠ entryhiAsidMask → vpn2Of (c.tlb i).hi = vpn2Of (c.tlb j).hi →
    asidOf (c.tlb i).hi = asidOf (c.tlb j).hi → i = j

theorem tlbMatch_iff {e : TlbEntry} (hg : e.lo0 &&& entryloGMask = 0) (hi : Word) :
    tlbMatch e hi = true ↔ vpn2Of e.hi = vpn2Of hi ∧ asidOf e.hi = asidOf hi := by
  have hz : e.lo0 &&& e.lo1 &&& entryloGMask = 0 := by
    rw [BitVec.and_assoc, BitVec.and_comm e.lo1, ← BitVec.and_assoc, hg]
    simp
  simp [tlbMatch, hz, vpn2Of, asidOf]

theorem tlbLookup_none {c : Cpu} (hg : c.NoGlobal) {hi : Word} (h : c.tlbLookup hi = none)
    (i : Fin tlbSize) : ¬ (vpn2Of (c.tlb i).hi = vpn2Of hi ∧ asidOf (c.tlb i).hi = asidOf hi) := by
  rw [← tlbMatch_iff (hg i)]
  simp only [tlbLookup, List.find?_eq_none] at h
  exact h i (List.mem_finRange i)

theorem tlbLookup_some {c : Cpu} (hg : c.NoGlobal) {hi : Word} {i : Fin tlbSize}
    (h : c.tlbLookup hi = some i) :
    vpn2Of (c.tlb i).hi = vpn2Of hi ∧ asidOf (c.tlb i).hi = asidOf hi := by
  rw [← tlbMatch_iff (hg i)]
  exact List.find?_some (p := fun i => tlbMatch (c.tlb i) hi) h

theorem index_of_fin (i : Fin tlbSize) :
    (BitVec.ofNat 32 i &&& indexIndexMask).toNat = i.val ∧
      BitVec.ofNat 32 i &&& indexPMask = 0 := by
  revert i
  decide

theorem tlbProbe_some {c : Cpu} {i : Fin tlbSize} (h : c.tlbLookup c.entryhi = some i) :
    c.tlbProbe = { c with index := BitVec.ofNat 32 i } := by
  simp only [tlbProbe, h]

theorem tlbProbe_none {c : Cpu} (h : c.tlbLookup c.entryhi = none) :
    c.tlbProbe = { c with index := indexPMask } := by
  simp only [tlbProbe, h]

theorem indexed_of_index {c : Cpu} {i : Fin tlbSize} (h : c.index = BitVec.ofNat 32 i) :
    c.indexed = some i := by
  have hi := (index_of_fin i).1
  rw [indexed, dif_pos (by rw [h, hi]; exact i.isLt)]
  congr 1
  apply Fin.ext
  simp only [h, hi]

theorem tlbWriteIndexed_of_index {c : Cpu} {i : Fin tlbSize} (h : c.index = BitVec.ofNat 32 i) :
    c.tlbWriteIndexed = { c with tlb := Function.update c.tlb i c.registers } := by
  simp only [tlbWriteIndexed, indexed_of_index h]

/-! ### The stores -/

/-- The entry `tlb_store_random` writes: the page's half is filled, the other one is invalid. -/
def randomEntry (hi vpn pfn : Word) : TlbEntry where
  hi := hi &&& (entryhiVpn2Mask ||| entryhiAsidMask)
  lo0 := if tlbEntryPair vpn = 0 then entryloOf pfn else 0
  lo1 := if tlbEntryPair vpn = 0 then 0 else entryloOf pfn
  mask := pagemask4K

theorem tlbStoreRandom_spec (c : Cpu) (vpn pfn : Word) (r : Fin tlbSize) :
    (c.tlbStoreRandom vpn pfn r).tlb =
        Function.update c.tlb r (randomEntry c.entryhi vpn pfn) ∧
      (c.tlbStoreRandom vpn pfn r).entryhi = c.entryhi := by
  by_cases h : tlbEntryPair vpn = 0
  · simp only [tlbStoreRandom, tlbWriteRandom, registers, randomEntry, if_pos h, and_self]
  · simp only [tlbStoreRandom, tlbWriteRandom, registers, randomEntry, if_neg h, and_self]

/-- The entry `tlb_store_indexed` leaves in place of `e`: one half is replaced. -/
def indexedEntry (e : TlbEntry) (vpn pfn : Word) : TlbEntry where
  hi := e.hi &&& (entryhiVpn2Mask ||| entryhiAsidMask)
  lo0 := if tlbEntryPair vpn = 0 then entryloOf pfn else e.lo0
  lo1 := if tlbEntryPair vpn = 0 then e.lo1 else entryloOf pfn
  mask := pagemask4K

theorem tlbStoreIndexed_spec {c : Cpu} {i : Fin tlbSize} (h : c.index = BitVec.ofNat 32 i)
    (vpn pfn : Word) :
    (c.tlbStoreIndexed vpn pfn).tlb =
        Function.update c.tlb i (indexedEntry (c.tlb i) vpn pfn) ∧
      (c.tlbStoreIndexed vpn pfn).entryhi = (c.tlb i).hi := by
  have hread : c.tlbRead = { c with
      entryhi := (c.tlb i).hi
      entrylo0 := (c.tlb i).lo0
      entrylo1 := (c.tlb i).lo1
      pagemask := (c.tlb i).mask } := by
    simp only [tlbRead, indexed_of_index h]
  by_cases hp : tlbEntryPair vpn = 0
  · simp only [tlbStoreIndexed, hread, if_pos hp]
    rw [tlbWriteIndexed_of_index (i := i) (by exact h)]
    simp only [registers, indexedEntry, if_pos hp, and_self]
  · simp only [tlbStoreIndexed, hread, if_neg hp]
    rw [tlbWriteIndexed_of_index (i := i) (by exact h)]
    simp only [registers, indexedEntry, if_neg hp, and_self]

/-! ### Flushing -/

/-- What flushing may do to the TLB: an entry stays, or both its halves are cleared. -/
structure Flushed (c c' : Cpu) : Prop where
  entryhi : c'.entryhi = c.entryhi
  ie : c'.ie = c.ie
  hi : ∀ i, vpn2Of (c'.tlb i).hi = vpn2Of (c.tlb i).hi ∧ asidOf (c'.tlb i).hi = asidOf (c.tlb i).hi
  lo : ∀ i, ((c'.tlb i).lo0 = (c.tlb i).lo0 ∧ (c'.tlb i).lo1 = (c.tlb i).lo1) ∨
    ((c'.tlb i).lo0 = 0 ∧ (c'.tlb i).lo1 = 0)

theorem Flushed.refl (c : Cpu) : Flushed c c :=
  ⟨rfl, rfl, fun _ => ⟨rfl, rfl⟩, fun _ => Or.inl ⟨rfl, rfl⟩⟩

theorem Flushed.trans {c c' c'' : Cpu} (h : Flushed c c') (h' : Flushed c' c'') :
    Flushed c c'' := by
  refine ⟨h'.entryhi.trans h.entryhi, h'.ie.trans h.ie, ?_, ?_⟩
  · intro i
    exact ⟨(h'.hi i).1.trans (h.hi i).1, (h'.hi i).2.trans (h.hi i).2⟩
  · intro i
    rcases h'.lo i with ⟨h1, h2⟩ | hz
    · rcases h.lo i with ⟨h3, h4⟩ | hz
      · exact Or.inl ⟨h1.trans h3, h2.trans h4⟩
      · exact Or.inr ⟨h1.trans hz.1, h2.trans hz.2⟩
    · exact Or.inr hz

theorem Flushed.noGlobal {c c' : Cpu} (h : Flushed c c') (hg : c.NoGlobal) : c'.NoGlobal := by
  intro i
  rcases h.lo i with ⟨h1, -⟩ | ⟨h1, -⟩
  · rw [h1]
    exact hg i
  · rw [h1]
    simp

theorem Flushed.uniqueMatch {c c' : Cpu} (h : Flushed c c') (hu : c.UniqueMatch) :
    c'.UniqueMatch := by
  intro i j ha hv has
  rw [(h.hi i).2] at ha has
  rw [(h.hi i).1, (h.hi j).1] at hv
  rw [(h.hi j).2] at has
  exact hu i j ha hv has

/-- Both halves of every entry of address space `asid` for the pair `pair` are cleared. -/
def Cleared (c : Cpu) (pair asid : Word) : Prop :=
  ∀ i, vpn2Of (c.tlb i).hi = pair → asidOf (c.tlb i).hi = asid →
    (c.tlb i).lo0 = 0 ∧ (c.tlb i).lo1 = 0

/-- More flushing keeps what is cleared. -/
theorem Flushed.cleared {c c' : Cpu} (h : Flushed c c') {pair asid : Word}
    (hc : c.Cleared pair asid) : c'.Cleared pair asid := by
  intro i hp ha
  rw [(h.hi i).1] at hp
  rw [(h.hi i).2] at ha
  rcases h.lo i with ⟨h1, h2⟩ | hz
  · obtain ⟨h3, h4⟩ := hc i hp ha
    exact ⟨h1.trans h3, h2.trans h4⟩
  · exact hz

/-- **`tlb_flush` clears the page in the current address space and touches nothing else.** -/
theorem tlbFlush_spec {c : Cpu} (hg : c.NoGlobal) (hu : c.UniqueMatch)
    (ha : asidOf c.entryhi ≠ entryhiAsidMask) (addr : Word) :
    Flushed c (c.tlbFlush addr) ∧
      (c.tlbFlush addr).Cleared (vpn2Of addr) (asidOf c.entryhi) := by
  set p : Cpu := { c with ie := false, entryhi := flushProbe c.entryhi addr } with hp
  have hpg : p.NoGlobal := hg
  cases hl : p.tlbLookup p.entryhi with
  | none =>
    have hprobe := tlbProbe_none hl
    have heq : (c.tlbFlush addr).tlb = c.tlb ∧ (c.tlbFlush addr).entryhi = c.entryhi ∧
        (c.tlbFlush addr).ie = c.ie := by
      simp only [tlbFlush, queryAndDisableInterrupts, ← hp, hprobe]
      rw [if_neg (by decide)]
      cases c.ie <;> simp [conditionallyEnableInterrupts, hp]
    obtain ⟨h1, h2, h3⟩ := heq
    refine ⟨⟨h2, h3, fun i => by rw [h1]; exact ⟨rfl, rfl⟩, fun i => by rw [h1]; exact Or.inl ⟨rfl, rfl⟩⟩,
      ?_⟩
    intro i hv has
    rw [h1] at hv has
    refine absurd ⟨?_, ?_⟩ (tlbLookup_none hpg hl i)
    · rw [show p.entryhi = flushProbe c.entryhi addr from rfl, vpn2Of_flushProbe]
      exact hv
    · rw [show p.entryhi = flushProbe c.entryhi addr from rfl, asidOf_flushProbe]
      exact has
  | some k =>
    have hprobe := tlbProbe_some hl
    obtain ⟨hk1, hk2⟩ := tlbLookup_some hpg hl
    rw [show p.entryhi = flushProbe c.entryhi addr from rfl, vpn2Of_flushProbe] at hk1
    rw [show p.entryhi = flushProbe c.entryhi addr from rfl, asidOf_flushProbe] at hk2
    set e : TlbEntry := ⟨flushProbe c.entryhi addr &&& (entryhiVpn2Mask ||| entryhiAsidMask), 0, 0,
      pagemask4K⟩ with he
    have heq : (c.tlbFlush addr).tlb = Function.update c.tlb k e ∧
        (c.tlbFlush addr).entryhi = c.entryhi ∧ (c.tlbFlush addr).ie = c.ie := by
      simp only [tlbFlush, queryAndDisableInterrupts, ← hp, hprobe]
      rw [if_pos (index_of_fin k).2, tlbWriteIndexed_of_index rfl]
      cases c.ie <;> simp [conditionallyEnableInterrupts, hp, registers, he]
    obtain ⟨h1, h2, h3⟩ := heq
    have hv : vpn2Of e.hi = vpn2Of (c.tlb k).hi := by
      rw [he, vpn2Of_registers, vpn2Of_flushProbe]
      exact hk1.symm
    have has : asidOf e.hi = asidOf (c.tlb k).hi := by
      rw [he, asidOf_registers, asidOf_flushProbe]
      exact hk2.symm
    have hF : Flushed c (c.tlbFlush addr) := by
      refine ⟨h2, h3, fun i => ?_, fun i => ?_⟩
      · rw [h1]
        by_cases hik : i = k
        · subst hik
          simp [hv, has]
        · simp [hik]
      · rw [h1]
        by_cases hik : i = k
        · subst hik
          right
          simp [he]
        · left
          simp [hik]
    refine ⟨hF, fun i hvi hai => ?_⟩
    -- the only entry that answers for the page is the one that was overwritten
    have hik : i = k := by
      rw [(hF.hi i).1] at hvi
      rw [(hF.hi i).2] at hai
      exact hu i k (by rw [hai]; exact ha) (by rw [hvi, hk1]) (by rw [hai, hk2])
    subst hik
    rw [h1]
    simp [he]

/-! ### Initialisation -/

/-- The entry `tlb_init` copies to every position. -/
def initEntry : TlbEntry := ⟨entryhiAsidMask, 0, 0, pagemask4K⟩

/-- The registers `tlb_init` has loaded when its loop runs. -/
structure InitRegisters (c : Cpu) : Prop where
  entryhi : c.entryhi = entryhiAsidMask
  entrylo0 : c.entrylo0 = 0
  entrylo1 : c.entrylo1 = 0
  pagemask : c.pagemask = pagemask4K

theorem InitRegisters.registers {c : Cpu} (h : c.InitRegisters) : c.registers = initEntry := by
  simp only [Cpu.registers, h.entryhi, h.entrylo0, h.entrylo1, h.pagemask, initEntry]
  congr 1

/-- The loop of `tlb_init` has written the first `n` entries. -/
theorem tlbInit_loop {c : Cpu} (h : c.InitRegisters) (n : ℕ) (hn : n ≤ tlbSize) :
    let d := (List.range n).foldl
      (fun c i => { c with index := BitVec.ofNat 32 i : Cpu }.tlbWriteIndexed) c
    d.InitRegisters ∧ ∀ i : Fin tlbSize, i.val < n → d.tlb i = initEntry := by
  induction n with
  | zero => exact ⟨h, fun i hi => absurd hi (Nat.not_lt_zero _)⟩
  | succ n ih =>
    obtain ⟨hr, ht⟩ := ih (by omega)
    simp only [List.range_succ, List.foldl_append, List.foldl_cons, List.foldl_nil]
    set d := (List.range n).foldl
      (fun c i => { c with index := BitVec.ofNat 32 i : Cpu }.tlbWriteIndexed) c
    rw [tlbWriteIndexed_of_index (i := ⟨n, by omega⟩) rfl]
    have hd : ({ d with index := BitVec.ofNat 32 n : Cpu }).registers = initEntry :=
      InitRegisters.registers ⟨hr.entryhi, hr.entrylo0, hr.entrylo1, hr.pagemask⟩
    refine ⟨⟨hr.entryhi, hr.entrylo0, hr.entrylo1, hr.pagemask⟩, fun i hi => ?_⟩
    by_cases hin : i = ⟨n, by omega⟩
    · simp [hin, hd]
    · have hlt : i.val < n := by
        have : i.val ≠ n := fun hval => hin (Fin.ext hval)
        omega
      simp [hin, ht i hlt]

/-- After `tlb_init` every entry is invalid and belongs to the unused address space. -/
theorem tlbInit_tlb (c : Cpu) (i : Fin tlbSize) : c.tlbInit.tlb i = initEntry := by
  have hinit : InitRegisters ⟨c.ie, c.index, entryhiAsidMask, 0, 0, pagemask4K, 0, c.tlb⟩ :=
    ⟨rfl, rfl, rfl, rfl⟩
  exact (tlbInit_loop hinit tlbSize le_rfl).2 i i.isLt

end Cpu

end Kalisto
