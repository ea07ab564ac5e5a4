import Kalisto.Mm.FrameOwnership
import Kalisto.Mm.TlbSteps

/-!
# The TLB agrees with the virtual memory maps

The coherence of the TLB with the slots of all maps, for every run of the address space machine in
which at most 254 maps are created (the limit `mm/vmm.c` states).

`CpuCoh B c` is coherence against an abstract backing relation `B asid page pfn`: no global
entry, at most one entry for a page pair of an address space in use, and behind every valid half a
backed page.  The TLB functions keep it for any `B`, the flush loop of `vma_unmap` moves it to a
smaller `B`, and the machine instantiates `B` with its valid slots.
-/

namespace Kalisto

/-! ### Coherence with a backing relation -/

/-- Every valid half of the TLB is backed. -/
structure CpuCoh (B : Word → Word → Word → Prop) (c : Cpu) : Prop where
  noGlobal : c.NoGlobal
  unique : c.UniqueMatch
  backed : ∀ i (page : Word), page.toNat < 2 ^ 20 → vpn2Of (c.tlb i).hi = pairOf page →
    entryloValid (Machine.half (c.tlb i) page) →
    B (asidOf (c.tlb i).hi) page (entryloPfn (Machine.half (c.tlb i) page))

namespace CpuCoh

variable {B B' : Word → Word → Word → Prop} {c c' : Cpu}

theorem mono (h : CpuCoh B c) (hB : ∀ asid page pfn, B asid page pfn → B' asid page pfn) :
    CpuCoh B' c :=
  ⟨h.noGlobal, h.unique, fun i page hp hv hval => hB _ _ _ (h.backed i page hp hv hval)⟩

/-- Only the entries matter, not the registers. -/
theorem of_tlb (h : CpuCoh B c) (heq : c'.tlb = c.tlb) : CpuCoh B c' := by
  refine ⟨fun i => ?_, fun i j => ?_, fun i => ?_⟩
  · rw [heq]
    exact h.noGlobal i
  · rw [heq]
    exact h.unique i j
  · rw [heq]
    exact h.backed i

/-- Replacing entry `r` by an entry `e` keeps coherence when `e` is not global, does not double
another entry, and its valid halves are backed. -/
theorem update (h : CpuCoh B c) {r : Fin tlbSize} {e : TlbEntry}
    (htlb : c'.tlb = Function.update c.tlb r e) (hg : e.lo0 &&& entryloGMask = 0)
    (hu : ∀ i, i ≠ r → ¬ (vpn2Of (c.tlb i).hi = vpn2Of e.hi ∧ asidOf (c.tlb i).hi = asidOf e.hi))
    (hb : ∀ page : Word, page.toNat < 2 ^ 20 → vpn2Of e.hi = pairOf page →
      entryloValid (Machine.half e page) →
      B (asidOf e.hi) page (entryloPfn (Machine.half e page))) :
    CpuCoh B c' := by
  refine ⟨fun i => ?_, fun i j => ?_, fun i => ?_⟩
  · rw [htlb]
    by_cases hi : i = r
    · subst hi
      simpa using hg
    · simpa [hi] using h.noGlobal i
  · rw [htlb]
    by_cases hi : i = r <;> by_cases hj : j = r
    · intro _ _ _
      rw [hi, hj]
    · subst hi
      intro _ hv ha
      simp only [Function.update_self, ne_eq, hj, not_false_eq_true, Function.update_of_ne] at hv ha
      exact absurd ⟨hv.symm, ha.symm⟩ (hu j hj)
    · subst hj
      intro _ hv ha
      simp only [Function.update_self, ne_eq, hi, not_false_eq_true, Function.update_of_ne] at hv ha
      exact absurd ⟨hv, ha⟩ (hu i hi)
    · simpa [hi, hj] using h.unique i j
  · rw [htlb]
    by_cases hi : i = r
    · subst hi
      simpa using hb
    · simpa [hi] using h.backed i

/-- **`tlb_store_random` after a refill.**  No entry answers for the page pair and the page is
backed. -/
theorem storeRandom (h : CpuCoh B c) {vpn pfn : Word} (r : Fin tlbSize)
    (hl : c.tlbLookup c.entryhi = none) (hvpn : vpn.toNat < 2 ^ 20) (hpfn : pfn.toNat < 2 ^ 24)
    (hpair : vpn2Of c.entryhi = pairOf vpn) (hB : B (asidOf c.entryhi) vpn pfn) :
    CpuCoh B (c.tlbStoreRandom vpn pfn r) := by
  have he1 : vpn2Of (Cpu.randomEntry c.entryhi vpn pfn).hi = vpn2Of c.entryhi := vpn2Of_registers _
  have he2 : asidOf (Cpu.randomEntry c.entryhi vpn pfn).hi = asidOf c.entryhi := asidOf_registers _
  refine h.update (Cpu.tlbStoreRandom_spec c vpn pfn r).1 ?_ ?_ ?_
  · simp only [Cpu.randomEntry]
    split
    · exact entryloOf_global pfn
    · simp
  · intro i _
    rw [he1, he2]
    exact Cpu.tlbLookup_none h.noGlobal hl i
  · intro page hpage hv hval
    rw [he1, hpair] at hv
    -- the other half is invalid, so the page is the one that was stored
    have hhalf : Cpu.tlbEntryPair page = Cpu.tlbEntryPair vpn := by
      by_contra hne
      apply not_entryloValid_zero
      by_cases hz : Cpu.tlbEntryPair vpn = 0
      · have hpz := mt (entryPair_zero_iff_of_ne hne).mp (not_not.mpr hz)
        simpa only [Machine.half, Cpu.randomEntry, if_pos hz, if_neg hpz] using hval
      · have hpz := (entryPair_zero_iff_of_ne hne).mpr hz
        simpa only [Machine.half, Cpu.randomEntry, if_neg hz, if_pos hpz] using hval
    have hpv : page = vpn := page_eq_of_pair hpage hvpn hv.symm hhalf
    subst hpv
    have hlo : Machine.half (Cpu.randomEntry c.entryhi page pfn) page = Cpu.entryloOf pfn := by
      simp only [Machine.half, Cpu.randomEntry]
      split <;> rfl
    rw [hlo, entryloPfn_entryloOf hpfn, he2]
    exact hB

/-- **`tlb_store_indexed` on the entry that answers for the page.**  The other half of the entry
stays as it was. -/
theorem storeIndexed (h : CpuCoh B c) {vpn pfn : Word} {i : Fin tlbSize}
    (hindex : c.index = BitVec.ofNat 32 i) (hasid : asidOf (c.tlb i).hi ≠ entryhiAsidMask)
    (hvpn : vpn.toNat < 2 ^ 20) (hpfn : pfn.toNat < 2 ^ 24)
    (hpair : vpn2Of (c.tlb i).hi = pairOf vpn) (hB : B (asidOf (c.tlb i).hi) vpn pfn) :
    CpuCoh B (c.tlbStoreIndexed vpn pfn) := by
  have he1 : vpn2Of (Cpu.indexedEntry (c.tlb i) vpn pfn).hi = vpn2Of (c.tlb i).hi :=
    vpn2Of_registers _
  have he2 : asidOf (Cpu.indexedEntry (c.tlb i) vpn pfn).hi = asidOf (c.tlb i).hi :=
    asidOf_registers _
  refine h.update (Cpu.tlbStoreIndexed_spec hindex vpn pfn).1 ?_ ?_ ?_
  · simp only [Cpu.indexedEntry]
    split
    · exact entryloOf_global pfn
    · exact h.noGlobal i
  · intro j hj
    rw [he1, he2]
    rintro ⟨hv, ha⟩
    exact hj (h.unique j i (by rw [ha]; exact hasid) hv ha)
  · intro page hpage hv hval
    rw [he1] at hv
    rw [he2]
    by_cases hhalf : Cpu.tlbEntryPair page = Cpu.tlbEntryPair vpn
    · have hpv : page = vpn := page_eq_of_pair hpage hvpn (hv.symm.trans hpair) hhalf
      subst hpv
      have hlo : Machine.half (Cpu.indexedEntry (c.tlb i) page pfn) page = Cpu.entryloOf pfn := by
        simp only [Machine.half, Cpu.indexedEntry]
        split <;> rfl
      rw [hlo, entryloPfn_entryloOf hpfn]
      exact hB
    · -- the untouched half was backed before
      have hlo : Machine.half (Cpu.indexedEntry (c.tlb i) vpn pfn) page
          = Machine.half (c.tlb i) page := by
        by_cases hz : Cpu.tlbEntryPair vpn = 0
        · have hpz := mt (entryPair_zero_iff_of_ne hhalf).mp (not_not.mpr hz)
          simp only [Machine.half, Cpu.indexedEntry, if_pos hz, if_neg hpz]
        · have hpz := (entryPair_zero_iff_of_ne hhalf).mpr hz
          simp only [Machine.half, Cpu.indexedEntry, if_neg hz, if_pos hpz]
      rw [hlo] at hval ⊢
      exact h.backed i page hpage hv hval

/-- Flushing keeps coherence, and a page whose pair was cleared has no valid half any more. -/
theorem flushed (h : CpuCoh B c) (hf : Cpu.Flushed c c')
    (hB : ∀ asid page pfn, page.toNat < 2 ^ 20 → ¬ c'.Cleared (pairOf page) asid →
      B asid page pfn → B' asid page pfn) : CpuCoh B' c' := by
  refine ⟨hf.noGlobal h.noGlobal, hf.uniqueMatch h.unique, fun i page hpage hv hval => ?_⟩
  have hncl : ¬ c'.Cleared (pairOf page) (asidOf (c'.tlb i).hi) := by
    intro hcl
    obtain ⟨h0, h1⟩ := hcl i hv rfl
    apply not_entryloValid_zero
    simp only [Machine.half, h0, h1, ite_self] at hval
    exact hval
  have hlo : (c'.tlb i).lo0 = (c.tlb i).lo0 ∧ (c'.tlb i).lo1 = (c.tlb i).lo1 := by
    rcases hf.lo i with hsame | ⟨h0, h1⟩
    · exact hsame
    · simp only [Machine.half, h0, h1, ite_self] at hval
      exact absurd hval not_entryloValid_zero
  have hhalf : Machine.half (c'.tlb i) page = Machine.half (c.tlb i) page := by
    simp only [Machine.half, hlo.1, hlo.2]
  rw [hhalf] at hval ⊢
  refine hB _ _ _ hpage hncl ?_
  rw [(hf.hi i).2]
  exact h.backed i page hpage (by rw [← (hf.hi i).1]; exact hv) hval

end CpuCoh

end Kalisto
