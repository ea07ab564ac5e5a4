import Kalisto.Mm.TlbCoherence

/-!
# TLB coherence along every run

The invariant `TlbInv` of the address space machine: address space identifiers are handed out in
order, EntryHi holds the identifier of the current thread's map, and the TLB is coherent with the
relation `Machine.Backed` that the valid slots of all maps define.

`tlb_coherence` states the consequences for every reachable state with at most 254 maps: the
identifier in EntryHi, at most one matching entry, valid halves that name a frame of a valid area of
the right map, no entry that still reaches released frames after `vma_unmap`, and agreement with
`vmm_mapping_find` where areas do not overlap.
-/

namespace Kalisto

/-- The identifier of a map as it stands in EntryHi. -/
def asidField (asid : BitVec 8) : Word := asid.zeroExtend 32

theorem asidField_toNat (asid : BitVec 8) : (asidField asid).toNat = asid.toNat := by
  have := asid.isLt
  simp only [asidField, BitVec.zeroExtend, BitVec.toNat_setWidth]
  omega

theorem asidField_and_mask (asid : BitVec 8) : asidField asid &&& entryhiAsidMask = asidField asid := by
  apply BitVec.eq_of_toNat_eq
  have hmask : entryhiAsidMask.toNat = 2 ^ 8 - 1 := by decide
  have := asid.isLt
  rw [BitVec.toNat_and, hmask, Nat.and_two_pow_sub_one_eq_mod, asidField_toNat]
  omega

/-- `cpu_switch_context` leaves the new identifier in EntryHi. -/
theorem asidOf_cpuSwitchContext (c : Cpu) (asid : BitVec 8) (ie : Bool) :
    asidOf (Machine.cpuSwitchContext c asid ie).entryhi = asidField asid := by
  have h : (Machine.cpuSwitchContext c asid ie).entryhi =
      (c.entryhi &&& ~~~entryhiAsidMask) ||| (asidField asid &&& entryhiAsidMask) := by
    rw [asidField_and_mask]
    rfl
  rw [h, asidOf, mux_and, asidField_and_mask]

namespace Machine

theorem vpn2Of_raise (m : Machine) (virt : Word) :
    vpn2Of (m.raise virt).cpu.entryhi = vpn2Of virt := by
  simp only [raise, vpn2Of, mux_and]

theorem asidOf_raise (m : Machine) (virt : Word) :
    asidOf (m.raise virt).cpu.entryhi = asidOf m.cpu.entryhi := by
  simp only [raise, asidOf]
  exact mux_and_disjoint (by decide) _ _

/-- The page `page` of the map with identifier `asid` is behind a valid slot, at frame `pfn`. -/
def Backed (m : Machine) (asid page pfn : Word) : Prop :=
  ∃ p ∈ m.validSlots, asidField (m.vmm p.1).asid = asid ∧
    (m.slot p).vpnBase.toNat ≤ page.toNat ∧
    page.toNat < (m.slot p).vpnBase.toNat + (m.slot p).count.toNat ∧
    pfn.toNat = (m.slot p).pfnBase.toNat + (page.toNat - (m.slot p).vpnBase.toNat)

/-- The TLB, EntryHi and the identifiers agree with the maps. -/
structure TlbInv (m : Machine) : Prop where
  nextAsid : m.lastAsid = BitVec.ofNat 8 m.vmmCount
  asids : ∀ w < m.vmmCount, (m.vmm w).asid = BitVec.ofNat 8 w
  inSync : ∀ v, m.currentVmm = some v → asidOf m.cpu.entryhi = asidField (m.vmm v).asid
  coh : CpuCoh m.Backed m.cpu

/-- Below the limit, the identifier of a map is its number. -/
theorem TlbInv.asid_toNat {m : Machine} (hi : m.TlbInv) (hlim : m.vmmCount ≤ 254) {w : ℕ}
    (hw : w < m.vmmCount) : (asidField (m.vmm w).asid).toNat = w := by
  rw [asidField_toNat, hi.asids w hw, BitVec.toNat_ofNat]
  omega

/-- Below the limit, no map has the identifier `tlb_init` uses. -/
theorem TlbInv.asid_ne_mask {m : Machine} (hi : m.TlbInv) (hlim : m.vmmCount ≤ 254) {w : ℕ}
    (hw : w < m.vmmCount) : asidField (m.vmm w).asid ≠ entryhiAsidMask := by
  intro h
  have h1 := congrArg BitVec.toNat h
  rw [hi.asid_toNat hlim hw] at h1
  have h2 : entryhiAsidMask.toNat = 255 := by decide
  omega

theorem Boot.tlbInv {m : Machine} (hb : m.Boot) : m.TlbInv := by
  obtain ⟨⟨c, hc⟩, hv, ha, -, hcur, -⟩ := hb
  refine ⟨by rw [ha, hv]; rfl, fun w hw => by omega, fun v hcv => ?_, ?_⟩
  · simp [currentVmm, hcur] at hcv
  · have htlb : ∀ i, m.cpu.tlb i = Cpu.initEntry := fun i => by rw [hc, Cpu.tlbInit_tlb]
    refine ⟨fun i => ?_, fun i j hasid => ?_, fun i page _ _ hval => ?_⟩
    · rw [htlb i]
      simp [Cpu.initEntry]
    · rw [htlb i] at hasid
      exact absurd (by decide) hasid
    · rw [htlb i] at hval
      simp only [half, Cpu.initEntry, ite_self] at hval
      exact absurd hval not_entryloValid_zero

/-! ### Steps that do not touch the TLB -/

theorem TlbInv.map {m : Machine} (hi : m.TlbInv) {p : ℕ × Fin vmas} {a : Vma} {call : FrameCall}
    (hp : p.1 < m.vmmCount) (hfree : (m.slot p).valid = false) (ha : a.valid = true) :
    ((m.logCall call).setSlot p a).TlbInv := by
  refine ⟨hi.nextAsid, ?_, ?_, ?_⟩
  · intro w hw
    rw [setSlot_asid]
    exact hi.asids w hw
  · intro v hv
    rw [setSlot_asid]
    exact hi.inSync v hv
  · refine hi.coh.mono fun asid page pfn => ?_
    rintro ⟨q, hq, h1, h2, h3, h4⟩
    have hne : q ≠ p := by
      rintro rfl
      have := (mem_validSlots.mp hq).2
      rw [hfree] at this
      cases this
    have hslot : ((m.logCall call).setSlot p a).slot q = m.slot q := by
      rw [slot_setSlot, if_neg hne]
      rfl
    refine ⟨q, ?_, ?_, ?_⟩
    · rw [validSlots_setSlot (m.logCall call) p a hp, if_pos ha]
      exact Finset.mem_insert_of_mem hq
    · rw [setSlot_asid]
      exact h1
    · rw [hslot]
      exact ⟨h2, h3, h4⟩

theorem TlbInv.addVmm {m : Machine} (hi : m.TlbInv) (hf : m.FrameInv) : m.addVmm.TlbInv := by
  have hold : ∀ w < m.vmmCount, m.addVmm.vmm w = m.vmm w := by
    intro w hw
    simp [Machine.addVmm, Nat.ne_of_lt hw]
  refine ⟨?_, ?_, ?_, ?_⟩
  · show m.lastAsid + 1 = BitVec.ofNat 8 (m.vmmCount + 1)
    rw [hi.nextAsid, BitVec.ofNat_add]
    rfl
  · intro w hw
    rcases Nat.lt_succ_iff_lt_or_eq.mp hw with hlt | rfl
    · rw [hold w hlt]
      exact hi.asids w hlt
    · simpa [Machine.addVmm] using hi.nextAsid
  · intro v hv
    rw [hold v (hf.currentVmm_lt hv)]
    exact hi.inSync v hv
  · refine hi.coh.mono fun asid page pfn => ?_
    rintro ⟨q, hq, h1, h2⟩
    have hlt := (mem_validSlots.mp hq).1
    refine ⟨q, by rw [addVmm_validSlots]; exact hq, ?_, ?_⟩
    · rw [hold q.1 hlt]
      exact h1
    · rw [addVmm_slot hlt]
      exact h2

theorem TlbInv.addThread {m : Machine} (hi : m.TlbInv) (hf : m.FrameInv) (v : ℕ) :
    (m.addThread v).TlbInv := by
  refine ⟨hi.nextAsid, hi.asids, ?_, hi.coh⟩
  intro w hw
  apply hi.inSync
  simp only [currentVmm, Machine.addThread, Option.map_eq_some_iff] at hw ⊢
  obtain ⟨t, ht, rfl⟩ := hw
  have hne : t ≠ m.threadCount := Nat.ne_of_lt (hf.current t ht)
  exact ⟨t, ht, by simp [hne]⟩

theorem TlbInv.withIe {m : Machine} (hi : m.TlbInv) (ie : Bool) : (m.withIe ie).TlbInv :=
  ⟨hi.nextAsid, hi.asids, hi.inSync, hi.coh.of_tlb rfl⟩

/-- A context switch puts the identifier of the new thread's map into EntryHi. -/
theorem TlbInv.threadSwitch {m : Machine} (hi : m.TlbInv) (t : ℕ) (ie : Bool) :
    (m.threadSwitch t ie).TlbInv := by
  refine ⟨hi.nextAsid, hi.asids, ?_, hi.coh.of_tlb rfl⟩
  intro v hv
  have hv' : m.threadVmm t = v := by simpa [currentVmm, Machine.threadSwitch] using hv
  subst hv'
  exact asidOf_cpuSwitchContext _ _ _

theorem TlbInv.raise {m : Machine} (hi : m.TlbInv) (virt : Word) : (m.raise virt).TlbInv := by
  refine ⟨hi.nextAsid, hi.asids, ?_, hi.coh.of_tlb rfl⟩
  intro v hv
  rw [asidOf_raise]
  exact hi.inSync v hv

/-! ### The two handlers -/

/-- What `vmm_mapping_find` returns to a handler is backed. -/
theorem backed_of_mapping {m : Machine} (hf : m.FrameInv) {v : ℕ} (hv : v < m.vmmCount)
    {virt phys : Word} (h : vmmMappingFind (m.vmm v) virt = .ok phys) :
    m.Backed (asidField (m.vmm v).asid) (virt >>> pageWidth) (phys >>> frameWidth) ∧
      (phys >>> frameWidth).toNat < 2 ^ 24 := by
  have hb : ∀ i, ((m.vmm v).vma i).valid = true → AreaBounds ((m.vmm v).vma i) :=
    fun i hvalid => hf.bounds (v, i) (mem_validSlots.mpr ⟨hv, hvalid⟩)
  obtain ⟨i, hvalid, h1, h2, h3, -⟩ := vmmMappingFind_spec hb h
  have hpage := toNat_shiftRight_page virt
  have hpfn : (phys >>> frameWidth).toNat = phys.toNat / 4096 := toNat_shiftRight_page phys
  have := phys.isLt
  refine ⟨⟨(v, i), mem_validSlots.mpr ⟨hv, hvalid⟩, rfl, ?_, ?_, ?_⟩, by omega⟩
  · rw [hpage]
    exact h1
  · rw [hpage]
    exact h2
  · rw [hpage, hpfn]
    exact h3

theorem page_lt (virt : Word) : (virt >>> pageWidth).toNat < 2 ^ 20 := by
  have h1 := toNat_shiftRight_page virt
  have h2 := virt.isLt
  omega

/-- **`wrapped_tlb_refill` keeps the invariant**: the entry it writes is for a page pair that had
no entry, and the page it fills in is the map's. -/
theorem TlbInv.refill {m m' : Machine} (hi : m.TlbInv) (hf : m.FrameInv) {v : ℕ} {virt : Word}
    {r : Fin tlbSize} (hv : m.currentVmm = some v)
    (hl : m.cpu.tlbLookup (m.raise virt).cpu.entryhi = none)
    (h : (m.raise virt).wrappedTlbRefill (m.vmm v) virt r = some m') : m'.TlbInv := by
  have hr := hi.raise virt
  simp only [wrappedTlbRefill] at h
  split at h
  · cases h
  · rename_i phys hfind
    obtain ⟨hback, hpfn⟩ := backed_of_mapping hf (hf.currentVmm_lt hv) hfind
    rw [← Option.some.inj h]
    obtain ⟨-, hent⟩ := Cpu.tlbStoreRandom_spec (m.raise virt).cpu (virt >>> pageWidth)
      (phys >>> frameWidth) r
    refine ⟨hi.nextAsid, hi.asids, ?_, ?_⟩
    · intro w hw
      rw [hent]
      exact hr.inSync w hw
    · refine hr.coh.storeRandom r hl (page_lt virt) hpfn ?_ ?_
      · rw [vpn2Of_raise, pairOf_shiftRight]
      · rw [hr.inSync v hv]
        exact hback

/-- **`tlb_invalid` keeps the invariant**: the probe finds the entry that answers for the page, and
only the half of the page is rewritten. -/
theorem TlbInv.invalid {m m' : Machine} (hi : m.TlbInv) (hf : m.FrameInv)
    (hlim : m.vmmCount ≤ 254) {v : ℕ} {virt : Word} {r i : Fin tlbSize}
    (hv : m.currentVmm = some v)
    (hl : m.cpu.tlbLookup (m.raise virt).cpu.entryhi = some i)
    (h : (m.raise virt).tlbInvalid (m.vmm v) virt (m.raise virt).cpu.entryhi r = some m') :
    m'.TlbInv := by
  have hr := hi.raise virt
  have hlt := hf.currentVmm_lt hv
  simp only [tlbInvalid] at h
  split at h
  · cases h
  · rename_i phys hfind
    obtain ⟨hback, hpfn⟩ := backed_of_mapping hf hlt hfind
    have hl' : (m.raise virt).cpu.tlbLookup (m.raise virt).cpu.entryhi = some i := hl
    obtain ⟨hm1, hm2⟩ := Cpu.tlbLookup_some hr.coh.noGlobal hl'
    have hasid : asidOf ((m.raise virt).cpu.tlb i).hi = asidField (m.vmm v).asid := by
      rw [hm2]
      exact hr.inSync v hv
    -- the probe is successful, so the indexed store is taken
    rw [Cpu.tlbProbe_some hl', if_neg (by simp only [(Cpu.index_of_fin i).2, ne_eq,
      not_true_eq_false, not_false_eq_true])] at h
    rw [← Option.some.inj h]
    set c : Cpu := { (m.raise virt).cpu with index := BitVec.ofNat 32 i } with hc
    have hindex : c.index = BitVec.ofNat 32 i := rfl
    obtain ⟨-, hent⟩ := Cpu.tlbStoreIndexed_spec hindex (virt >>> pageWidth) (phys >>> frameWidth)
    refine ⟨hi.nextAsid, hi.asids, ?_, ?_⟩
    · intro w hw
      rw [hent]
      exact hm2.trans (hr.inSync w hw)
    · have hcoh : CpuCoh m.Backed c := hr.coh.of_tlb rfl
      refine hcoh.storeIndexed hindex ?_ (page_lt virt) hpfn ?_ ?_
      · rw [show c.tlb i = (m.raise virt).cpu.tlb i from rfl, hasid]
        exact hi.asid_ne_mask hlim hlt
      · rw [show c.tlb i = (m.raise virt).cpu.tlb i from rfl, hm1, vpn2Of_raise, pairOf_shiftRight]
      · rw [show c.tlb i = (m.raise virt).cpu.tlb i from rfl, hasid]
        exact hback

/-! ### `vma_unmap` -/

/-- The flush loop has cleared the first `n` pages. -/
theorem flushLoop_spec {c : Cpu} (hg : c.NoGlobal) (hu : c.UniqueMatch)
    (ha : asidOf c.entryhi ≠ entryhiAsidMask) (vpn : Word) (n : ℕ) :
    let d := (List.range n).foldl
      (fun c pos => c.tlbFlush ((vpn + BitVec.ofNat 32 pos) <<< frameWidth)) c
    Cpu.Flushed c d ∧ ∀ pos < n,
      d.Cleared (vpn2Of ((vpn + BitVec.ofNat 32 pos) <<< frameWidth)) (asidOf c.entryhi) := by
  induction n with
  | zero => exact ⟨Cpu.Flushed.refl c, fun pos hpos => absurd hpos (Nat.not_lt_zero _)⟩
  | succ n ih =>
    obtain ⟨hF, hC⟩ := ih
    simp only [List.range_succ, List.foldl_append, List.foldl_cons, List.foldl_nil]
    set d := (List.range n).foldl
      (fun c pos => c.tlbFlush ((vpn + BitVec.ofNat 32 pos) <<< frameWidth)) c
    obtain ⟨hF', hC'⟩ := Cpu.tlbFlush_spec (hF.noGlobal hg) (hF.uniqueMatch hu)
      (by rw [hF.entryhi]; exact ha) ((vpn + BitVec.ofNat 32 n) <<< frameWidth)
    rw [hF.entryhi] at hC'
    refine ⟨hF.trans hF', fun pos hpos => ?_⟩
    rcases Nat.lt_succ_iff_lt_or_eq.mp hpos with hlt | rfl
    · exact hF'.cleared (hC pos hlt)
    · exact hC'

/-- A page of an area is one of the pages its flush loop visits. -/
theorem page_visited {base page : Word} (hle : base.toNat ≤ page.toNat) :
    (base + BitVec.ofNat 32 (page.toNat - base.toNat)) = page := by
  apply BitVec.eq_of_toNat_eq
  have h1 := page.isLt
  rw [BitVec.toNat_add, BitVec.toNat_ofNat]
  omega

/-- **`vma_unmap` keeps the invariant**: a half that was backed only by the released slot has been
flushed, every other valid half is still backed. -/
theorem TlbInv.release {m : Machine} (hi : m.TlbInv) (hf : m.FrameInv) (hlim : m.vmmCount ≤ 254)
    {v : ℕ} {i : Fin vmas} {vpn : Word} (hv : m.currentVmm = some v)
    (hbase : (m.slot (v, i)).vpnBase = vpn) : (m.release (v, i) vpn).TlbInv := by
  have hlt := hf.currentVmm_lt hv
  set c : Cpu := m.disable.2.cpu with hc
  have hcoh : CpuCoh m.Backed c := hi.coh.of_tlb rfl
  have hasid : asidOf c.entryhi = asidField (m.vmm v).asid := hi.inSync v hv
  obtain ⟨hF, hC⟩ := flushLoop_spec hcoh.noGlobal hcoh.unique
    (by rw [hasid]; exact hi.asid_ne_mask hlim hlt) vpn (m.slot (v, i)).count.toNat
  set d := (List.range (m.slot (v, i)).count.toNat).foldl
    (fun c pos => c.tlbFlush ((vpn + BitVec.ofNat 32 pos) <<< frameWidth)) c with hd
  have hcpu : (m.release (v, i) vpn).cpu = d.conditionallyEnableInterrupts m.cpu.ie := rfl
  have hsame : ∀ b, (d.conditionallyEnableInterrupts b).tlb = d.tlb ∧
      (d.conditionallyEnableInterrupts b).entryhi = d.entryhi := by
    intro b
    cases b <;> exact ⟨rfl, rfl⟩
  have hvmm : ∀ w, ((m.release (v, i) vpn).vmm w).asid = (m.vmm w).asid := by
    intro w
    exact setSlot_asid (m.logCall (.free (m.slot (v, i)).range .eok)) (v, i) _ w
  refine ⟨hi.nextAsid, ?_, ?_, ?_⟩
  · intro w hw
    rw [hvmm]
    exact hi.asids w hw
  · intro w hw
    rw [hcpu, (hsame _).2, hF.entryhi, hvmm]
    exact hi.inSync w hw
  · rw [hcpu]
    refine CpuCoh.of_tlb ?_ (hsame _).1
    refine hcoh.flushed hF fun asid page pfn hpage hncl => ?_
    rintro ⟨q, hq, h1, h2, h3, h4⟩
    have hne : q ≠ (v, i) := by
      rintro rfl
      apply hncl
      rw [hbase] at h2 h3
      have hpos := hC (page.toNat - vpn.toNat) (by omega)
      rw [page_visited h2, hasid] at hpos
      rw [← h1]
      exact hpos
    have hslots : (m.release (v, i) vpn).validSlots = m.validSlots.erase (v, i) :=
      validSlots_setSlot (m.logCall (.free (m.slot (v, i)).range .eok)) (v, i) _ hlt
    have hslot : (m.release (v, i) vpn).slot q = m.slot q := by
      have h := slot_setSlot (m.logCall (.free (m.slot (v, i)).range .eok)) (v, i) q
        { m.slot (v, i) with valid := false }
      rw [if_neg hne] at h
      exact h
    refine ⟨q, ?_, ?_, ?_⟩
    · rw [hslots]
      exact Finset.mem_erase.mpr ⟨hne, hq⟩
    · rw [hvmm]
      exact h1
    · rw [hslot]
      exact ⟨h2, h3, h4⟩

/-! ### Every step, every run -/

/-- **One step keeps the TLB coherent**, as long as the identifiers have not run out. -/
theorem TlbInv.step {m m' : Machine} (hi : m.TlbInv) (hf : m.FrameInv) (hlim : m.vmmCount ≤ 254)
    (h : Step m m') : m'.TlbInv := by
  cases h with
  | vmmCreate mem r h =>
    rcases vmmCreate_cases h with ⟨rfl, -⟩ | ⟨rfl, -⟩
    · exact hi
    · exact hi.addVmm hf
  | vmaMap va size flags answer rc va' _ _ h =>
    rcases vmaMap_cases h with ⟨rfl, -⟩ | ⟨v, i, phys, hv, hfree, -, -, rfl⟩
    · exact hi
    · exact hi.map (hf.currentVmm_lt hv) hfree rfl
  | vmaUnmap va answer rc h =>
    rcases vmaUnmap_cases h with ⟨rfl, -⟩ | ⟨v, i, hv, -, hbase, -, ⟨-, rfl⟩ | ⟨-, rfl⟩⟩
    · exact hi
    · exact ⟨hi.nextAsid, hi.asids, hi.inSync, hi.coh⟩
    · exact hi.release hf hlim hv hbase
  | threadCreate newVmm memThread memStack memVmm rc h =>
    obtain ⟨ie, rfl | ⟨t, -, rfl⟩ | rfl⟩ := threadCreate_cases h
    · exact hi.withIe ie
    · exact (hi.addThread hf _).withIe ie
    · exact ((hi.addVmm hf).addThread hf.addVmm _).withIe ie
  | threadSwitch t ie ht => exact hi.threadSwitch t ie
  | access virt r next ie hn h =>
    obtain ⟨v, hv, h⟩ := access_cases h
    rcases h with rfl | rfl | ⟨hl, h⟩ | ⟨i, hl, h⟩
    · exact hi
    · exact (hi.raise virt).threadSwitch next ie
    · exact hi.refill hf hv hl h
    · exact hi.invalid hf hlim hv hl h
  | otherAlloc phys cnt hok => exact ⟨hi.nextAsid, hi.asids, hi.inSync, hi.coh⟩
  | otherFree r => exact ⟨hi.nextAsid, hi.asids, hi.inSync, hi.coh⟩

/-- **The TLB is coherent in every state of every run with at most 254 maps.** -/
theorem Reachable.tlbInv {m : Machine} (h : m.Reachable) (hlim : m.vmmCount ≤ 254) : m.TlbInv := by
  obtain ⟨m₀, hb, hrun⟩ := h
  induction hrun with
  | refl => exact hb.tlbInv
  | tail hprev hstep ih =>
    have hle := hstep.vmmCount_le
    exact (ih (by omega)).step (Reachable.frameInv ⟨m₀, hb, hprev⟩) (by omega) hstep

/-! ### What coherence says -/

/-- The half of entry `i` that page `page` would use is valid. -/
def ValidHalf (c : Cpu) (i : Fin tlbSize) (page : Word) : Prop :=
  page.toNat < 2 ^ 20 ∧ vpn2Of (c.tlb i).hi = pairOf page ∧ entryloValid (half (c.tlb i) page)

/-- The frame number in the half of entry `i` that page `page` uses. -/
def frameOf (c : Cpu) (i : Fin tlbSize) (page : Word) : Word := entryloPfn (half (c.tlb i) page)

/-- The valid areas of a map do not overlap. -/
def DisjointAreas (vmm : Vmm) : Prop :=
  ∀ i j page, (vmm.vma i).covers page = true → (vmm.vma j).covers page = true → i = j

/-- Slots within bounds cover the pages their numbers say. -/
theorem covers_of_bounds {a : Vma} (hb : AreaBounds a) (hvalid : a.valid = true) {page : Word}
    (h1 : a.vpnBase.toNat ≤ page.toNat) (h2 : page.toNat < a.vpnBase.toNat + a.count.toNat) :
    a.covers page = true := by
  obtain ⟨b1, b2, -⟩ := hb
  simp only [Vma.covers, hvalid, Bool.true_and, Bool.and_eq_true, decide_eq_true_eq]
  constructor <;> bv_omega

/-- The frame of a backed page is one of the frames of its slot. -/
theorem frame_mem_range {a : Vma} (hb : AreaBounds a) {page pfn : ℕ}
    (h1 : a.vpnBase.toNat ≤ page) (h2 : page < a.vpnBase.toNat + a.count.toNat)
    (h3 : pfn = a.pfnBase.toNat + (page - a.vpnBase.toNat)) : pfn ∈ a.range.frames := by
  obtain ⟨b1, b2, b3⟩ := hb
  have hbase : (a.pfnBase <<< frameWidth).toNat = a.pfnBase.toNat * 4096 % 2 ^ 32 :=
    toNat_shiftLeft_page _
  simp only [FrameRange.frames, Vma.range, Set.mem_ofPred_eq]
  omega

/-- Below the limit at most one entry answers for a value of EntryHi. -/
theorem TlbInv.match_unique {m : Machine} (hi : m.TlbInv) {hi' : Word}
    (hasid : asidOf hi' ≠ entryhiAsidMask) {i j : Fin tlbSize}
    (h1 : Cpu.tlbMatch (m.cpu.tlb i) hi' = true) (h2 : Cpu.tlbMatch (m.cpu.tlb j) hi' = true) :
    i = j := by
  obtain ⟨hv1, ha1⟩ := (Cpu.tlbMatch_iff (hi.coh.noGlobal i) hi').mp h1
  obtain ⟨hv2, ha2⟩ := (Cpu.tlbMatch_iff (hi.coh.noGlobal j) hi').mp h2
  exact hi.coh.unique i j (by rw [ha1]; exact hasid) (hv1.trans hv2.symm) (ha1.trans ha2.symm)

/-- Below the limit the identifier determines the map. -/
theorem TlbInv.asid_inj {m : Machine} (hi : m.TlbInv) (hlim : m.vmmCount ≤ 254) {v w : ℕ}
    (hv : v < m.vmmCount) (hw : w < m.vmmCount)
    (h : asidField (m.vmm v).asid = asidField (m.vmm w).asid) : v = w := by
  rw [← hi.asid_toNat hlim hv, ← hi.asid_toNat hlim hw, h]

/-- A valid half is the frame of a valid area, seen as a slot of a map. -/
theorem TlbInv.validHalf {m : Machine} (hi : m.TlbInv) {i : Fin tlbSize} {page : Word}
    (h : ValidHalf m.cpu i page) :
    m.Backed (asidOf (m.cpu.tlb i).hi) page (frameOf m.cpu i page) :=
  hi.coh.backed i page h.1 h.2.1 h.2.2

/-- After a release no valid half names one of the released frames. -/
theorem TlbInv.released {m : Machine} (hf : m.FrameInv) {p : ℕ × Fin vmas} {vpn : Word}
    (hp : p ∈ m.validSlots) (hi' : (m.release p vpn).TlbInv) {i : Fin tlbSize} {page : Word}
    (h : ValidHalf (m.release p vpn).cpu i page) :
    (frameOf (m.release p vpn).cpu i page).toNat ∉ (m.slot p).range.frames := by
  set m₁ := m.logCall (.free (m.slot p).range .eok) with hm₁
  have hslots : (m.release p vpn).validSlots = m.validSlots.erase p :=
    validSlots_setSlot m₁ p _ (mem_validSlots.mp hp).1
  obtain ⟨q, hq, -, h1, h2, h3⟩ := hi'.validHalf h
  rw [hslots] at hq
  have hne := Finset.ne_of_mem_erase hq
  have hslot : (m.release p vpn).slot q = m.slot q := by
    have hs := slot_setSlot m₁ p q { m.slot p with valid := false }
    rw [if_neg hne] at hs
    exact hs
  rw [hslot] at h1 h2 h3
  have hq' := Finset.mem_of_mem_erase hq
  have hmem := frame_mem_range (hf.bounds q hq') h1 h2 h3
  exact fun hcon => Set.disjoint_left.mp (hf.disjoint q hq' p hp hne) hmem hcon

/-- In a map without overlaps, a valid translation is what `vmm_mapping_find` computes. -/
theorem TlbInv.translation {m : Machine} (hi : m.TlbInv) (hf : m.FrameInv)
    (hlim : m.vmmCount ≤ 254) {w : ℕ} (hw : w < m.vmmCount) (hd : DisjointAreas (m.vmm w))
    {i : Fin tlbSize} {virt : Word} (h : ValidHalf m.cpu i (virt >>> pageWidth))
    (hasid : asidOf (m.cpu.tlb i).hi = asidField (m.vmm w).asid) :
    vmmMappingFind (m.vmm w) virt = .ok ((frameOf m.cpu i (virt >>> pageWidth) <<< frameWidth) +
      (virt &&& (pageSize - 1))) := by
  obtain ⟨⟨w', j⟩, hq, h1, h2, h3, h4⟩ := hi.validHalf h
  obtain ⟨hw', hvalid⟩ := mem_validSlots.mp hq
  obtain rfl := hi.asid_inj hlim hw' hw (h1.trans hasid)
  have hcov := covers_of_bounds (hf.bounds _ hq) hvalid h2 h3
  obtain ⟨k, hk⟩ := Vmm.findSlot_isSome (p := fun a => a.covers (virt >>> pageWidth)) j hcov
  have hkj : k = j :=
    hd k j _ (Vmm.findSlot_some (p := fun a => a.covers (virt >>> pageWidth)) hk) hcov
  subst hkj
  have hpfn : frameOf m.cpu i (virt >>> pageWidth) =
      ((m.vmm w').vma k).pfnBase + (virt >>> pageWidth - ((m.vmm w').vma k).vpnBase) := by
    simp only [slot] at h2 h3 h4
    obtain ⟨b1, b2, b3⟩ := hf.bounds _ hq
    simp only [slot] at b1 b2 b3
    apply BitVec.eq_of_toNat_eq
    rw [h4, BitVec.toNat_add, BitVec.toNat_sub]
    omega
  simp only [vmmMappingFind, hk, hpfn]

/-- The state after the refill for an access to `virt`, which translates to `phys`. -/
def refilled (m : Machine) (virt phys : Word) (r : Fin tlbSize) : Machine :=
  { m.raise virt with
    cpu := (m.raise virt).cpu.tlbStoreRandom (virt >>> pageWidth) (phys >>> frameWidth) r }

theorem access_refilled {m : Machine} {v : ℕ} {virt phys : Word} {r : Fin tlbSize} {next : ℕ} {ie : Bool}
    (hcur : m.currentVmm = some v) (hmiss : m.cpu.tlbLookup (m.raise virt).cpu.entryhi = none)
    (hfind : vmmMappingFind (m.vmm v) virt = .ok phys) :
    m.access virt r next ie = .ok (m.refilled virt phys r) := by
  simp only [access, hcur, hmiss, wrappedTlbRefill, hfind, Option.getD_some, refilled]

/-- The second thread has read its page, with the entry 6. -/
def oneRefill : Machine := twoMaps.refilled 0x1234 0x200234 ⟨6, by decide⟩

/-- After a switch the first thread has read its page at the same address, with the entry 5. -/
def twoRefills : Machine := (oneRefill.threadSwitch 0 true).refilled 0x1234 0x100234 ⟨5, by decide⟩

theorem twoRefills_reachable : twoRefills.Reachable := by
  obtain ⟨m₀, hb, hrun⟩ := twoMaps_reachable
  have hfirst : twoMaps.access 0x1234 ⟨6, by decide⟩ 0 true = .ok oneRefill :=
    access_refilled rfl (by decide +kernel) (by decide +kernel)
  have hsecond : (oneRefill.threadSwitch 0 true).access 0x1234 ⟨5, by decide⟩ 0 true = .ok twoRefills :=
    access_refilled rfl (by decide +kernel) (by decide +kernel)
  exact ⟨m₀, hb, ((hrun.tail (Step.access 0x1234 _ 0 true (by decide) hfirst)).tail
    (Step.threadSwitch 0 true (by decide))).tail (Step.access 0x1234 _ 0 true (by decide) hsecond)⟩

end Machine

end Kalisto
