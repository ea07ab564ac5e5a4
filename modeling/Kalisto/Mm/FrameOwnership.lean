import Kalisto.Mm.AddressSpaceSteps

/-!
# Who owns which frames

The invariant of the address space machine that speaks about frames.  A slot of a map is the only
record of the frames behind it, so the invariant says that the record and the frame allocator agree:

* the ranges of the valid slots of all maps, as a multiset, are exactly the ranges `vma_map`
  obtained and `vma_unmap` has not given back;
* they are pairwise disjoint, and disjoint from what the rest of the kernel holds;
* every `frame_free` call named a range that was outstanding at that moment.

`Reachable.frameInv` proves it for every run, by one lemma for each kind of step.  Isolation follows:
two different pages, of one map or of two, never translate to one frame.
-/

namespace Kalisto

namespace Machine

/-! ### The valid slots and their ranges -/

/-- The slots of created maps that hold an area. -/
def validSlots (m : Machine) : Finset (ℕ × Fin vmas) :=
  (Finset.range m.vmmCount ×ˢ Finset.univ).filter fun p => (m.slot p).valid = true

/-- The frame ranges of the valid slots, with multiplicity. -/
def validRanges (m : Machine) : Multiset FrameRange :=
  m.validSlots.val.map fun p => (m.slot p).range

theorem mem_validSlots {m : Machine} {p : ℕ × Fin vmas} :
    p ∈ m.validSlots ↔ p.1 < m.vmmCount ∧ (m.slot p).valid = true := by
  simp [validSlots]

theorem mem_validRanges {m : Machine} {p : ℕ × Fin vmas} (hp : p ∈ m.validSlots) :
    (m.slot p).range ∈ m.validRanges :=
  Multiset.mem_map_of_mem _ hp

theorem validSlots_setSlot (m : Machine) (p : ℕ × Fin vmas) (a : Vma) (hp : p.1 < m.vmmCount) :
    (m.setSlot p a).validSlots =
      if a.valid then insert p m.validSlots else m.validSlots.erase p := by
  ext q
  rw [mem_validSlots, slot_setSlot, setSlot_vmmCount]
  by_cases hq : q = p
  · subst hq
    cases ha : a.valid <;> simp [hp, ha]
  · cases ha : a.valid <;> simp [hq, mem_validSlots]

/-- The range of every other slot is what it was. -/
theorem map_range_setSlot (m : Machine) (p : ℕ × Fin vmas) (a : Vma)
    (s : Finset (ℕ × Fin vmas)) (hp : p ∉ s) :
    s.val.map (fun q => ((m.setSlot p a).slot q).range) = s.val.map fun q => (m.slot q).range := by
  apply Multiset.map_congr rfl
  intro q hq
  have hne : q ≠ p := fun h => hp (h ▸ hq)
  rw [slot_setSlot, if_neg hne]

/-- Filling an unused slot adds its range. -/
theorem validRanges_fill {m : Machine} {p : ℕ × Fin vmas} {a : Vma} (hp : p.1 < m.vmmCount)
    (hfree : (m.slot p).valid = false) (ha : a.valid = true) :
    (m.setSlot p a).validRanges = a.range ::ₘ m.validRanges := by
  have hnot : p ∉ m.validSlots := by simp [mem_validSlots, hfree]
  rw [validRanges, validSlots_setSlot m p a hp, if_pos ha, Finset.insert_val_of_notMem hnot,
    Multiset.map_cons, map_range_setSlot m p a _ hnot, slot_setSlot, if_pos rfl, validRanges]

/-- Emptying a valid slot removes its range, once. -/
theorem validRanges_empty {m : Machine} {p : ℕ × Fin vmas} {a : Vma} (hp : p ∈ m.validSlots)
    (ha : a.valid = false) :
    (m.setSlot p a).validRanges = m.validRanges.erase (m.slot p).range := by
  have hlt := (mem_validSlots.mp hp).1
  have hnot : p ∉ m.validSlots.erase p := Finset.notMem_erase p _
  rw [validRanges, validSlots_setSlot m p a hlt, ha, if_neg (by simp),
    map_range_setSlot m p a _ hnot, validRanges]
  conv_rhs => rw [← Finset.insert_erase hp, Finset.insert_val_of_notMem hnot, Multiset.map_cons,
    Multiset.erase_cons_head]

/-! ### The invariant -/

/-- Every `frame_free` call of the log named a range that was outstanding. -/
def FreesMatched : List FrameCall → Prop
  | [] => True
  | .alloc _ :: log => FreesMatched log
  | .free r _ :: log => r ∈ outstanding log ∧ FreesMatched log

/-- The bounds of an area: its pages and its frames are those of a 32-bit address space. -/
structure AreaBounds (a : Vma) : Prop where
  vpn : a.vpnBase.toNat < 2 ^ 20
  count : a.count.toNat < 2 ^ 20
  frames : a.pfnBase.toNat + a.count.toNat ≤ 2 ^ 20

/-- The record in the slots and the frame allocator agree. -/
structure FrameInv (m : Machine) : Prop where
  /-- Every thread runs in a map that exists. -/
  threads : ∀ t < m.threadCount, m.threadVmm t < m.vmmCount
  current : ∀ t, m.current = some t → t < m.threadCount
  ranges : m.validRanges = outstanding m.frameCalls
  bounds : ∀ p ∈ m.validSlots, AreaBounds (m.slot p)
  disjoint : ∀ p ∈ m.validSlots, ∀ q ∈ m.validSlots, p ≠ q →
    Disjoint (m.slot p).range.frames (m.slot q).range.frames
  others : ∀ p ∈ m.validSlots, ∀ r ∈ m.otherRanges, Disjoint (m.slot p).range.frames r.frames
  matched : FreesMatched m.frameCalls

/-- The map of the current thread exists. -/
theorem FrameInv.currentVmm_lt {m : Machine} (hi : m.FrameInv) {v : ℕ}
    (hv : m.currentVmm = some v) : v < m.vmmCount := by
  simp only [currentVmm, Option.map_eq_some_iff] at hv
  obtain ⟨t, ht, rfl⟩ := hv
  exact hi.threads t (hi.current t ht)

/-- The invariant does not look at the processor, and any existing thread may be current. -/
theorem FrameInv.withCpu {m : Machine} (hi : m.FrameInv) (c : Cpu) (cur : Option ℕ)
    (hcur : ∀ t, cur = some t → t < m.threadCount) :
    ({ m with cpu := c, current := cur } : Machine).FrameInv :=
  ⟨hi.threads, hcur, hi.ranges, hi.bounds, hi.disjoint, hi.others, hi.matched⟩

theorem Boot.frameInv {m : Machine} (hb : m.Boot) : m.FrameInv := by
  obtain ⟨-, hv, -, ht, hc, hf⟩ := hb
  have hempty : m.validSlots = ∅ := by simp [validSlots, hv]
  refine ⟨?_, ?_, ?_, ?_, ?_, ?_, ?_⟩
  · intro t h
    omega
  · intro t h
    rw [hc] at h
    cases h
  · rw [validRanges, hempty, hf]
    rfl
  · simp [hempty]
  · simp [hempty]
  · simp [hempty]
  · rw [hf]
    trivial

/-! ### `vma_map` keeps it -/

/-- A slot that holds an aligned answer of the allocator describes exactly that range. -/
theorem range_of_answer {vpn phys count : Word} (ha : phys.toNat % 4096 = 0) :
    Vma.range ⟨vpn, phys >>> frameWidth, count, true⟩ = ⟨phys, count⟩ := by
  have h : (phys >>> frameWidth) <<< frameWidth = phys := by
    apply BitVec.eq_of_toNat_eq
    have h1 := toNat_shiftRight_page phys
    have h2 := toNat_shiftLeft_page (phys >>> pageWidth)
    have h3 := phys.isLt
    simp only [pageWidth] at h1 h2
    omega
  simp only [Vma.range, h]

theorem areaBounds_of_answer {va phys size : Word} (ha : phys.toNat % 4096 = 0)
    (hin : phys.toNat + (size >>> pageWidth).toNat * 4096 ≤ 2 ^ 32) :
    AreaBounds ⟨va >>> pageWidth, phys >>> frameWidth, size >>> pageWidth, true⟩ := by
  have hv := va.isLt
  have hs := size.isLt
  have h1 := toNat_shiftRight_page va
  have h2 := toNat_shiftRight_page size
  have h3 : (phys >>> frameWidth).toNat = phys.toNat / 4096 := toNat_shiftRight_page phys
  constructor <;> simp only <;> omega

theorem FrameInv.map {m : Machine} (hi : m.FrameInv) {v : ℕ} {i : Fin vmas} {va phys size : Word}
    (hv : m.currentVmm = some v) (hfree : (m.slot (v, i)).valid = false)
    (hok : FrameOk m phys (size >>> pageWidth)) :
    ((m.logCall (.alloc ⟨phys, size >>> pageWidth⟩)).setSlot (v, i)
      ⟨va >>> pageWidth, phys >>> frameWidth, size >>> pageWidth, true⟩).FrameInv := by
  have hlt := hi.currentVmm_lt hv
  set a : Vma := ⟨va >>> pageWidth, phys >>> frameWidth, size >>> pageWidth, true⟩ with ha
  set m₁ := m.logCall (.alloc ⟨phys, size >>> pageWidth⟩) with hm₁
  have hrange : a.range = ⟨phys, size >>> pageWidth⟩ := range_of_answer hok.aligned
  have hslots : (m₁.setSlot (v, i) a).validSlots = insert (v, i) m.validSlots :=
    validSlots_setSlot m₁ (v, i) a hlt
  have hnot : (v, i) ∉ m.validSlots := by simp [mem_validSlots, hfree]
  have hslot : ∀ q ∈ m.validSlots, (m₁.setSlot (v, i) a).slot q = m.slot q := by
    intro q hq
    have hne : q ≠ (v, i) := fun h => hnot (h ▸ hq)
    rw [slot_setSlot, if_neg hne]
    rfl
  have hnew : (m₁.setSlot (v, i) a).slot (v, i) = a := by rw [slot_setSlot, if_pos rfl]
  -- the answer overlaps none of the ranges that are in use
  have hfresh : ∀ q ∈ m.validSlots, Disjoint (m.slot q).range.frames a.range.frames := by
    intro q hq
    rw [hrange]
    refine hok.fresh _ (Multiset.mem_add.mpr (Or.inl ?_))
    rw [← hi.ranges]
    exact mem_validRanges hq
  refine ⟨hi.threads, hi.current, ?_, ?_, ?_, ?_, hi.matched⟩
  · have hfill := validRanges_fill (m := m₁) (p := (v, i)) (a := a) hlt hfree rfl
    rw [hfill, hrange]
    exact congrArg _ hi.ranges
  · intro p hp
    rw [hslots, Finset.mem_insert] at hp
    rcases hp with rfl | hp
    · rw [hnew]
      exact areaBounds_of_answer hok.aligned hok.inside
    · rw [hslot p hp]
      exact hi.bounds p hp
  · intro p hp q hq hne
    rw [hslots, Finset.mem_insert] at hp hq
    rcases hp with rfl | hp <;> rcases hq with rfl | hq
    · exact absurd rfl hne
    · rw [hnew, hslot q hq]
      exact (hfresh q hq).symm
    · rw [hnew, hslot p hp]
      exact hfresh p hp
    · rw [hslot p hp, hslot q hq]
      exact hi.disjoint p hp q hq hne
  · intro p hp r hr
    rw [hslots, Finset.mem_insert] at hp
    rcases hp with rfl | hp
    · rw [hnew, hrange]
      exact (hok.fresh r (Multiset.mem_add.mpr (Or.inr hr))).symm
    · rw [hslot p hp]
      exact hi.others p hp r hr

/-! ### `vma_unmap` keeps it -/

/-- A refused `frame_free` is logged and changes nothing else. -/
theorem FrameInv.refused {m : Machine} (hi : m.FrameInv) {p : ℕ × Fin vmas}
    (hp : p ∈ m.validSlots) {rc : Errno} (hrc : rc ≠ .eok) :
    (m.logCall (.free (m.slot p).range rc)).FrameInv := by
  refine ⟨hi.threads, hi.current, ?_, hi.bounds, hi.disjoint, hi.others, ?_, hi.matched⟩
  · show m.validRanges = outstanding (.free (m.slot p).range rc :: m.frameCalls)
    rw [outstanding, if_neg hrc]
    exact hi.ranges
  · rw [← hi.ranges]
    exact mem_validRanges hp

theorem FrameInv.release {m : Machine} (hi : m.FrameInv) {p : ℕ × Fin vmas}
    (hp : p ∈ m.validSlots) (vpn : Word) : (m.release p vpn).FrameInv := by
  set a : Vma := { m.slot p with valid := false } with ha
  set m₁ := m.logCall (.free (m.slot p).range .eok) with hm₁
  have hlt := (mem_validSlots.mp hp).1
  have hslots : (m.release p vpn).validSlots = m.validSlots.erase p :=
    validSlots_setSlot m₁ p a hlt
  have hslot : ∀ q ∈ m.validSlots.erase p, (m.release p vpn).slot q = m.slot q := by
    intro q hq
    have h := slot_setSlot m₁ p q a
    rw [if_neg (Finset.ne_of_mem_erase hq)] at h
    exact h
  refine ⟨hi.threads, hi.current, ?_, ?_, ?_, ?_, ?_, hi.matched⟩
  · have hempty := validRanges_empty (m := m₁) (p := p) (a := a) hp rfl
    show (m₁.setSlot p a).validRanges = outstanding (.free (m.slot p).range .eok :: m.frameCalls)
    rw [hempty, outstanding, if_pos rfl, ← hi.ranges]
    rfl
  · intro q hq
    rw [hslots] at hq
    rw [hslot q hq]
    exact hi.bounds q (Finset.mem_of_mem_erase hq)
  · intro q hq r hr hne
    rw [hslots] at hq hr
    rw [hslot q hq, hslot r hr]
    exact hi.disjoint q (Finset.mem_of_mem_erase hq) r (Finset.mem_of_mem_erase hr) hne
  · intro q hq r hr
    rw [hslots] at hq
    rw [hslot q hq]
    exact hi.others q (Finset.mem_of_mem_erase hq) r hr
  · rw [← hi.ranges]
    exact mem_validRanges hp

/-! ### Creating maps and threads keeps it -/

theorem addVmm_slot {m : Machine} {p : ℕ × Fin vmas} (hp : p.1 < m.vmmCount) :
    m.addVmm.slot p = m.slot p := by
  simp [addVmm, slot, Nat.ne_of_lt hp]

theorem addVmm_validSlots (m : Machine) : m.addVmm.validSlots = m.validSlots := by
  ext p
  rw [mem_validSlots, mem_validSlots]
  rcases Nat.lt_trichotomy p.1 m.vmmCount with hlt | heq | hgt
  · rw [addVmm_slot hlt]
    exact ⟨fun h => ⟨hlt, h.2⟩, fun h => ⟨Nat.lt_succ_of_lt hlt, h.2⟩⟩
  · simp [addVmm, slot, heq, Vma.zero]
  · have h1 : ¬ p.1 < m.addVmm.vmmCount := by simp only [addVmm]; omega
    have h2 : ¬ p.1 < m.vmmCount := by omega
    simp [h1, h2]

theorem FrameInv.addVmm {m : Machine} (hi : m.FrameInv) : m.addVmm.FrameInv := by
  have hslot : ∀ p ∈ m.validSlots, m.addVmm.slot p = m.slot p :=
    fun p hp => addVmm_slot (mem_validSlots.mp hp).1
  refine ⟨?_, hi.current, ?_, ?_, ?_, ?_, hi.matched⟩
  · intro t ht
    exact Nat.lt_succ_of_lt (hi.threads t ht)
  · rw [validRanges, addVmm_validSlots]
    exact (Multiset.map_congr rfl fun p hp => by rw [hslot p hp]).trans hi.ranges
  · intro p hp
    rw [addVmm_validSlots] at hp
    rw [hslot p hp]
    exact hi.bounds p hp
  · intro p hp q hq hne
    rw [addVmm_validSlots] at hp hq
    rw [hslot p hp, hslot q hq]
    exact hi.disjoint p hp q hq hne
  · intro p hp r hr
    rw [addVmm_validSlots] at hp
    rw [hslot p hp]
    exact hi.others p hp r hr

theorem FrameInv.addThread {m : Machine} (hi : m.FrameInv) {v : ℕ} (hv : v < m.vmmCount) :
    (m.addThread v).FrameInv := by
  refine ⟨?_, ?_, hi.ranges, hi.bounds, hi.disjoint, hi.others, hi.matched⟩
  · intro t ht
    by_cases h : t = m.threadCount
    · subst h
      simpa [Machine.addThread] using hv
    · have hlt : t < m.threadCount := by
        simp only [Machine.addThread] at ht
        omega
      simpa [Machine.addThread, h] using hi.threads t hlt
  · intro t ht
    exact Nat.lt_succ_of_lt (hi.current t ht)

theorem FrameInv.withIe {m : Machine} (hi : m.FrameInv) (ie : Bool) : (m.withIe ie).FrameInv :=
  hi.withCpu _ m.current hi.current

/-! ### Every step, every run -/

theorem FrameInv.access {m m' : Machine} (hi : m.FrameInv) {virt : Word} {r : Fin tlbSize}
    {next : ℕ} {ie : Bool} (hn : next < m.threadCount)
    (h : m.access virt r next ie = .ok m') : m'.FrameInv := by
  obtain ⟨v, -, h⟩ := access_cases h
  rcases h with rfl | rfl | ⟨-, h⟩ | ⟨i, -, h⟩
  · exact hi
  · refine hi.withCpu _ (some next) ?_
    intro t ht
    cases ht
    exact hn
  · obtain ⟨c, rfl⟩ := wrappedTlbRefill_maps h
    exact hi.withCpu c m.current hi.current
  · obtain ⟨c, rfl⟩ := tlbInvalid_maps h
    exact hi.withCpu c m.current hi.current

/-- **One step keeps the record and the allocator in agreement.** -/
theorem FrameInv.step {m m' : Machine} (hi : m.FrameInv) (h : Step m m') : m'.FrameInv := by
  cases h with
  | vmmCreate mem r h =>
    rcases vmmCreate_cases h with ⟨rfl, -⟩ | ⟨rfl, -⟩
    · exact hi
    · exact hi.addVmm
  | vmaMap va size flags answer rc va' hok _ h =>
    rcases vmaMap_cases h with ⟨rfl, -⟩ | ⟨v, i, phys, hv, hfree, hans, -, rfl⟩
    · exact hi
    · exact hi.map hv hfree (hok phys hans)
  | vmaUnmap va answer rc h =>
    rcases vmaUnmap_cases h with ⟨rfl, -⟩ | ⟨v, i, hv, hvalid, -, -, hend⟩
    · exact hi
    · have hp : (v, i) ∈ m.validSlots := mem_validSlots.mpr ⟨hi.currentVmm_lt hv, hvalid⟩
      rcases hend with ⟨hne, rfl⟩ | ⟨-, rfl⟩
      · exact hi.refused hp hne
      · exact hi.release hp _
  | threadCreate newVmm memThread memStack memVmm rc h =>
    obtain ⟨ie, rfl | ⟨t, ht, rfl⟩ | rfl⟩ := threadCreate_cases h
    · exact hi.withIe ie
    · exact (hi.addThread (hi.threads t (hi.current t ht))).withIe ie
    · exact (hi.addVmm.addThread (Nat.lt_succ_self _)).withIe ie
  | threadSwitch t ie ht =>
    refine hi.withCpu _ (some t) ?_
    intro t' ht'
    cases ht'
    exact ht
  | access virt r next ie hn h => exact hi.access hn h
  | otherAlloc phys cnt hok =>
    refine ⟨hi.threads, hi.current, hi.ranges, hi.bounds, hi.disjoint, ?_, hi.matched⟩
    intro p hp r hr
    rcases Multiset.mem_cons.mp hr with rfl | hr
    · refine hok.fresh _ (Multiset.mem_add.mpr (Or.inl ?_))
      rw [← hi.ranges]
      exact mem_validRanges hp
    · exact hi.others p hp r hr
  | otherFree r =>
    refine ⟨hi.threads, hi.current, hi.ranges, hi.bounds, hi.disjoint, ?_, hi.matched⟩
    intro p hp r' hr'
    exact hi.others p hp r' (Multiset.mem_of_mem_erase hr')

/-- **The invariant holds in every state of every run.** -/
theorem Reachable.frameInv {m : Machine} (h : m.Reachable) : m.FrameInv := by
  obtain ⟨m₀, hb, hrun⟩ := h
  induction hrun with
  | refl => exact hb.frameInv
  | tail _ hstep ih => exact ih.step hstep

/-! ### Isolation -/

/-- What a successful `vmm_mapping_find` says, in a map whose areas are within bounds: some valid
area holds the page, and the physical address is at the same byte offset from its first frame. -/
theorem vmmMappingFind_spec {vmm : Vmm} {virt phys : Word}
    (hb : ∀ i, (vmm.vma i).valid = true → AreaBounds (vmm.vma i))
    (h : vmmMappingFind vmm virt = .ok phys) :
    ∃ i, (vmm.vma i).valid = true ∧ (vmm.vma i).vpnBase.toNat ≤ virt.toNat / 4096 ∧
      virt.toNat / 4096 < (vmm.vma i).vpnBase.toNat + (vmm.vma i).count.toNat ∧
      phys.toNat / 4096 = (vmm.vma i).pfnBase.toNat +
        (virt.toNat / 4096 - (vmm.vma i).vpnBase.toNat) ∧
      phys.toNat % 4096 = virt.toNat % 4096 := by
  simp only [vmmMappingFind] at h
  split at h
  · rename_i i hi
    have hc := Vmm.findSlot_some (p := fun a => a.covers (virt >>> pageWidth)) hi
    simp only [Vma.covers, Bool.and_eq_true, decide_eq_true_eq] at hc
    obtain ⟨⟨hv, hle⟩, hlt⟩ := hc
    obtain ⟨b1, b2, b3⟩ := hb i hv
    simp only [Except.ok.injEq] at h
    have hvpn := toNat_shiftRight_page virt
    have hvirt := virt.isLt
    rw [BitVec.le_def] at hle
    have hlt' : (virt >>> pageWidth).toNat <
        (vmm.vma i).vpnBase.toNat + (vmm.vma i).count.toNat := by bv_omega
    have hpfn : ((vmm.vma i).pfnBase + (virt >>> pageWidth - (vmm.vma i).vpnBase)).toNat =
        (vmm.vma i).pfnBase.toNat + (virt.toNat / 4096 - (vmm.vma i).vpnBase.toNat) := by
      rw [BitVec.toNat_add, BitVec.toNat_sub, hvpn]
      rw [hvpn] at hle hlt'
      omega
    have hphys : phys.toNat = ((vmm.vma i).pfnBase.toNat +
        (virt.toNat / 4096 - (vmm.vma i).vpnBase.toNat)) * 4096 + virt.toNat % 4096 := by
      have hsh := toNat_shiftLeft_page
        ((vmm.vma i).pfnBase + (virt >>> pageWidth - (vmm.vma i).vpnBase))
      simp only [pageWidth] at hsh hpfn hlt' hle hvpn
      rw [← h, BitVec.toNat_add, and_pageMask_toNat]
      simp only [pageWidth]
      rw [hsh, hpfn]
      omega
    rw [hvpn] at hle hlt'
    exact ⟨i, hv, hle, hlt', by omega, by omega⟩
  · cases h

/-- The physical frame of a translated address belongs to the range of a valid slot of that map. -/
theorem FrameInv.translated {m : Machine} (hi : m.FrameInv) {v : ℕ} (hv : v < m.vmmCount)
    {virt phys : Word} (h : vmmMappingFind (m.vmm v) virt = .ok phys) :
    ∃ i, (v, i) ∈ m.validSlots ∧
      (m.slot (v, i)).vpnBase.toNat ≤ virt.toNat / 4096 ∧
      phys.toNat / 4096 =
        (m.slot (v, i)).pfnBase.toNat + (virt.toNat / 4096 - (m.slot (v, i)).vpnBase.toNat) ∧
      phys.toNat % 4096 = virt.toNat % 4096 ∧
      phys.toNat / 4096 ∈ (m.slot (v, i)).range.frames := by
  have hb : ∀ i, ((m.vmm v).vma i).valid = true → AreaBounds ((m.vmm v).vma i) :=
    fun i hvalid => hi.bounds (v, i) (mem_validSlots.mpr ⟨hv, hvalid⟩)
  obtain ⟨i, hvalid, h1, h2, h3, h4⟩ := vmmMappingFind_spec hb h
  have hmem : (v, i) ∈ m.validSlots := mem_validSlots.mpr ⟨hv, hvalid⟩
  refine ⟨i, hmem, h1, h3, h4, ?_⟩
  obtain ⟨b1, b2, b3⟩ := hi.bounds _ hmem
  have hbase : ((m.slot (v, i)).pfnBase <<< frameWidth).toNat
      = (m.slot (v, i)).pfnBase.toNat * 4096 % 2 ^ 32 := toNat_shiftLeft_page _
  simp only [slot] at hbase b1 b2 b3 ⊢
  simp only [FrameRange.frames, Vma.range, Set.mem_ofPred_eq]
  omega

/-- **Two different pages never share a frame.** -/
theorem FrameInv.isolated {m : Machine} (hi : m.FrameInv) {v w : ℕ} (hv : v < m.vmmCount)
    (hw : w < m.vmmCount) {virt virt' phys phys' : Word}
    (h : vmmMappingFind (m.vmm v) virt = .ok phys)
    (h' : vmmMappingFind (m.vmm w) virt' = .ok phys')
    (hne : (v, virt.toNat / 4096) ≠ (w, virt'.toNat / 4096)) :
    phys.toNat / 4096 ≠ phys'.toNat / 4096 := by
  obtain ⟨i, hi1, hle1, heq1, -, hf1⟩ := hi.translated hv h
  obtain ⟨j, hj1, hle2, heq2, -, hf2⟩ := hi.translated hw h'
  intro hsame
  by_cases hslot : (v, i) = (w, j)
  · -- in one area, different pages are at different distances from the first frame
    obtain ⟨rfl, rfl⟩ := Prod.mk.inj hslot
    apply hne
    have : virt.toNat / 4096 = virt'.toNat / 4096 := by omega
    rw [this]
  · rw [← hsame] at hf2
    exact Set.disjoint_left.mp (hi.disjoint _ hi1 _ hj1 hslot) hf1 hf2

/-- **Frame ownership and isolation.**  In every state of every run: the frames of all valid slots
of all maps are pairwise disjoint; every `frame_free` call of `vma_unmap` named a range that
`vma_map` had obtained and that was not yet freed; the ranges obtained and not freed are exactly the
ranges of the valid slots, each once; no two different pages translate to one frame; and a
translated address keeps its byte offset in the area. -/
theorem frame_ownership {m : Machine} (h : m.Reachable) :
    (∀ p ∈ m.validSlots, ∀ q ∈ m.validSlots, p ≠ q →
      Disjoint (m.slot p).range.frames (m.slot q).range.frames) ∧
    FreesMatched m.frameCalls ∧
    m.validRanges = outstanding m.frameCalls ∧
    (∀ v < m.vmmCount, ∀ w < m.vmmCount, ∀ virt virt' phys phys' : Word,
      vmmMappingFind (m.vmm v) virt = .ok phys → vmmMappingFind (m.vmm w) virt' = .ok phys' →
      (v, virt.toNat / 4096) ≠ (w, virt'.toNat / 4096) →
      phys.toNat / 4096 ≠ phys'.toNat / 4096) ∧
    (∀ v < m.vmmCount, ∀ virt phys : Word, vmmMappingFind (m.vmm v) virt = .ok phys →
      ∃ i, (v, i) ∈ m.validSlots ∧
        phys.toNat + (m.slot (v, i)).vpnBase.toNat * 4096 =
          (m.slot (v, i)).pfnBase.toNat * 4096 + virt.toNat) := by
  have hi := h.frameInv
  refine ⟨hi.disjoint, hi.matched, hi.ranges, ?_, ?_⟩
  · intro v hv w hw virt virt' phys phys' h1 h2 hne
    exact hi.isolated hv hw h1 h2 hne
  · intro v hv virt phys hfind
    obtain ⟨i, hmem, hle, hfr, hoff, -⟩ := hi.translated hv hfind
    exact ⟨i, hmem, by omega⟩

/-! ### A run with one mapped area -/

/-- A processor whose registers all hold zero. -/
def resetCpu : Cpu := ⟨false, 0, 0, 0, 0, 0, 0, fun _ => ⟨0, 0, 0, 0⟩⟩

/-- The state `bsp_start` makes on that processor. -/
def bootState : Machine where
  cpu := resetCpu.tlbInit
  vmm := fun _ => ⟨0, fun _ => Vma.zero⟩
  vmmCount := 0
  lastAsid := 0
  threadVmm := fun _ => 0
  threadCount := 0
  current := none
  frameCalls := []
  otherRanges := 0

/-- The first thread runs, in its own map. -/
def firstThread : Machine := (bootState.threadCreate false true true true).1.threadSwitch 0 true

theorem firstThread_reachable : firstThread.Reachable := by
  refine ⟨bootState, ⟨⟨resetCpu, rfl⟩, rfl, rfl, rfl, rfl, rfl⟩, ?_⟩
  have hcreate : Step bootState (bootState.threadCreate false true true true).1 :=
    Step.threadCreate false true true true _ Prod.mk.eta.symm
  exact (Relation.ReflTransGen.single hcreate).tail (Step.threadSwitch 0 true (by decide))

/-- A `VF_VA_USER` request that finds an unused slot and gets its frames succeeds. -/
theorem vmaMap_user {m : Machine} {v : ℕ} {i : Fin vmas} {va size phys : Word}
    (hcur : m.currentVmm = some v) (hslot : (m.vmm v).findSlot (fun a => !a.valid) = some i)
    (hsize : alignDown size pageSize = size) (hva : alignDown va pageSize = va) :
    m.vmaMap va size vfVaUser (.ok phys) =
      .ok ((m.logCall (.alloc ⟨phys, size >>> pageWidth⟩)).setSlot (v, i)
        ⟨va >>> pageWidth, phys >>> frameWidth, size >>> pageWidth, true⟩, .eok, va) := by
  have h1 : (vfVaUser &&& vfVaAuto == vfVaAuto) = false := by decide
  have h2 : (vfVaUser &&& vfVaUser == vfVaUser) = true := by decide
  have h3 : (vfVaUser &&& vfAtKseg0 == vfAtKseg0 || vfVaUser &&& vfAtKseg1 == vfAtKseg1) = false := by
    decide
  have hat : m.disable.2.vmaMapAt v va (size >>> pageWidth) (.ok phys) =
      ((m.disable.2.logCall (.alloc ⟨phys, size >>> pageWidth⟩)).setSlot (v, i)
        ⟨va >>> pageWidth, phys >>> frameWidth, size >>> pageWidth, true⟩, .eok, va) := by
    simp only [vmaMapAt, hva, ne_eq, not_true_eq_false, if_false, vmaMapSlot, disable_vmm, hslot]
  simp only [vmaMap, h1, h2, h3, hsize, disable_currentVmm, hcur, hat, Bool.false_xor, ne_eq,
    not_true_eq_false, Bool.true_eq_false, Bool.false_eq_true, if_false]
  simp only [enable, disable, setSlot, logCall, Cpu.enable_disable]

theorem zero_lt_vmas : 0 < vmas := by decide

/-- It maps one page at `0x1000`, backed by the frame at `0x100000`. -/
def onePage : Machine :=
  (firstThread.logCall (.alloc ⟨0x100000, 1⟩)).setSlot (0, ⟨0, zero_lt_vmas⟩) ⟨1, 0x100, 1, true⟩

theorem onePage_reachable : onePage.Reachable := by
  obtain ⟨m₀, hb, hrun⟩ := firstThread_reachable
  refine ⟨m₀, hb, hrun.tail (Step.vmaMap 0x1000 0x1000 vfVaUser (.ok 0x100000) .eok 0x1000 ?_ ?_ ?_)⟩
  · intro phys hphys
    cases hphys
    refine ⟨by decide, by decide, ?_⟩
    intro r hr
    exact absurd hr (by simp [firstThread, bootState, outstanding, threadSwitch, threadCreate,
      threadCreateVmm, vmmCreate, enable, disable])
  · intro h
    cases h
  · exact vmaMap_user rfl (by decide) (by decide) (by decide)

/-- `vma_unmap` of an area that is found and whose frames the allocator takes back. -/
theorem vmaUnmap_eok {m : Machine} {v : ℕ} {i : Fin vmas} {va : Word} (hcur : m.currentVmm = some v)
    (hslot : (m.vmm v).findSlot (fun a => a.valid && a.vpnBase == va >>> pageWidth) = some i)
    (hva : alignDown va pageSize = va) :
    m.vmaUnmap va .eok = .ok (m.release (v, i) (va >>> pageWidth), .eok) := by
  simp only [vmaUnmap, hva, ne_eq, not_true_eq_false, if_false, disable_currentVmm, hcur, vmaUnmapSlot,
    disable_vmm, hslot]
  rfl

/-- A second thread runs, in a map of its own. -/
def secondThread : Machine := (onePage.threadCreate true true true true).1.threadSwitch 1 true

/-- It maps two pages, from `0x1000` on as well, backed by the frames at `0x200000`. -/
def twoMaps : Machine :=
  (secondThread.logCall (.alloc ⟨0x200000, 2⟩)).setSlot (1, ⟨0, zero_lt_vmas⟩) ⟨1, 0x200, 2, true⟩

theorem twoMaps_reachable : twoMaps.Reachable := by
  obtain ⟨m₀, hb, hrun⟩ := onePage_reachable
  have hcreate : Step onePage (onePage.threadCreate true true true true).1 :=
    Step.threadCreate true true true true _ Prod.mk.eta.symm
  have hswitch : Step (onePage.threadCreate true true true true).1 secondThread :=
    Step.threadSwitch 1 true (by decide)
  refine ⟨m₀, hb, ((hrun.tail hcreate).tail hswitch).tail
    (Step.vmaMap 0x1000 0x2000 vfVaUser (.ok 0x200000) .eok 0x1000 ?_ ?_ ?_)⟩
  · intro phys hphys
    cases hphys
    refine ⟨by decide, by decide, fun r hr => ?_⟩
    -- the frame of the first map is the only one that is out
    have hout : outstanding secondThread.frameCalls + secondThread.otherRanges = {⟨0x100000, 1⟩} := rfl
    rw [hout, Multiset.mem_singleton] at hr
    subst hr
    rw [Set.disjoint_left]
    rintro f ⟨-, h1⟩ ⟨h2, -⟩
    simp only [BitVec.reduceToNat] at h1 h2
    omega
  · intro h
    cases h
  · exact vmaMap_user rfl (by decide) (by decide) (by decide)

/-- **The run through the theorem.**  One address is mapped in both maps, to different frames; the second
map gives its frames back and those of the first one are left. -/
theorem frame_ownership_twoMaps :
    twoMaps.Reachable ∧ vmmMappingFind (twoMaps.vmm 0) 0x1234 = .ok 0x100234 ∧
      vmmMappingFind (twoMaps.vmm 1) 0x1234 = .ok 0x200234 ∧
      (0x100234#32).toNat / 4096 ≠ (0x200234#32).toNat / 4096 ∧
      twoMaps.validRanges = {⟨0x200000, 2⟩, ⟨0x100000, 1⟩} ∧
      ∃ m', twoMaps.vmaUnmap 0x1000 .eok = .ok (m', .eok) ∧ m'.Reachable ∧
        FreesMatched m'.frameCalls ∧ m'.frameCalls.head? = some (.free ⟨0x200000, 2⟩ .eok) ∧
        m'.validRanges = {⟨0x100000, 1⟩} := by
  obtain ⟨-, -, hranges, hapart, -⟩ := frame_ownership twoMaps_reachable
  have h0 : vmmMappingFind (twoMaps.vmm 0) 0x1234 = .ok 0x100234 := by decide
  have h1 : vmmMappingFind (twoMaps.vmm 1) 0x1234 = .ok 0x200234 := by decide
  have hunmap : twoMaps.vmaUnmap 0x1000 .eok =
      .ok (twoMaps.release (1, ⟨0, zero_lt_vmas⟩) (0x1000 >>> pageWidth), .eok) :=
    vmaUnmap_eok rfl (by decide) (by decide)
  have hreach : (twoMaps.release (1, ⟨0, zero_lt_vmas⟩) (0x1000 >>> pageWidth)).Reachable := by
    obtain ⟨m₀, hb, hrun⟩ := twoMaps_reachable
    exact ⟨m₀, hb, hrun.tail (Step.vmaUnmap 0x1000 .eok .eok hunmap)⟩
  obtain ⟨-, hmatched, hleft, -⟩ := frame_ownership hreach
  refine ⟨twoMaps_reachable, h0, h1, ?_, hranges, _, hunmap, hreach, hmatched, rfl, ?_⟩
  · exact hapart 0 (by decide) 1 (by decide) 0x1234 0x1234 _ _ h0 h1 (by decide)
  · rw [hleft]
    rfl

end Machine

end Kalisto
