import Kalisto.Mm.FrameOwnership

/-!
# The areas of a map as a partial map of pages

A `struct vmm` is a table of areas with slots that are used again.  What it stands for is a partial map
from addresses to addresses, the one `vmm_mapping_find` computes.

* `vma_table_refines` — over a table with disjoint areas, `vma_map` adds the pages of one area to that
  map, `vma_unmap` takes the pages of one area away, and a call that fails changes nothing;
* `auto_placement_iff` — the range that `vma_map` chooses with `VF_VA_AUTO` overlaps no area exactly
  when the areas from page `0x40000` on leave room for it, and it does not wrap to the page 0.
-/

namespace Kalisto

/-! ### The pages of an area -/

/-- The pages of an area. -/
def Vma.pages (a : Vma) : Set ℕ := Set.Ico a.vpnBase.toNat (a.vpnBase.toNat + a.count.toNat)

instance (a : Vma) : DecidablePred (· ∈ a.pages) := fun n =>
  inferInstanceAs (Decidable (a.vpnBase.toNat ≤ n ∧ n < a.vpnBase.toNat + a.count.toNat))

/-- The valid areas do not overlap. -/
def Vmm.Apart (vmm : Vmm) : Prop :=
  ∀ i j, i ≠ j → (vmm.vma i).valid = true → (vmm.vma j).valid = true →
    Disjoint (vmm.vma i).pages (vmm.vma j).pages

/-- The valid areas have pages. -/
def Vmm.Nonempty (vmm : Vmm) : Prop := ∀ i, (vmm.vma i).valid = true → (vmm.vma i).count ≠ 0

/-- The valid areas end below the top of the address space. -/
def Vmm.InSpace (vmm : Vmm) : Prop :=
  ∀ i, (vmm.vma i).valid = true → (vmm.vma i).vpnBase.toNat + (vmm.vma i).count.toNat ≤ 2 ^ 20

theorem Vma.mem_pages_of_covers {a : Vma} {vpn : Word} (h : a.covers vpn = true) :
    a.valid = true ∧ vpn.toNat ∈ a.pages := by
  simp only [covers, Bool.and_eq_true, decide_eq_true_eq] at h
  obtain ⟨⟨hvalid, hlo⟩, hhi⟩ := h
  refine ⟨hvalid, ?_⟩
  simp only [pages, Set.mem_Ico]
  bv_omega

/-- Conversely for an area whose end does not wrap. -/
theorem Vma.covers_of_mem_pages {a : Vma} {vpn : Word} (hvalid : a.valid = true)
    (hend : a.vpnBase.toNat + a.count.toNat < 2 ^ 32) (h : vpn.toNat ∈ a.pages) :
    a.covers vpn = true := by
  simp only [pages, Set.mem_Ico] at h
  simp only [covers, hvalid, Bool.true_and, Bool.and_eq_true, decide_eq_true_eq]
  constructor <;> bv_omega

/-- A page is covered by one slot at most. -/
theorem Vmm.Apart.unique {vmm : Vmm} (h : vmm.Apart) {i j : Fin vmas} {vpn : Word}
    (hi : (vmm.vma i).covers vpn = true) (hj : (vmm.vma j).covers vpn = true) : i = j := by
  by_contra hne
  obtain ⟨hvi, hpi⟩ := Vma.mem_pages_of_covers hi
  obtain ⟨hvj, hpj⟩ := Vma.mem_pages_of_covers hj
  exact Set.disjoint_left.mp (h i j hne hvi hvj) hpi hpj

/-! ### The translation of a table -/

/-- Where an area has the address `virt`. -/
def Vma.phys (a : Vma) (virt : Word) : Word :=
  ((a.pfnBase + (virt >>> pageWidth - a.vpnBase)) <<< frameWidth) + (virt &&& (pageSize - 1))

theorem vmmMappingFind_of_covers {vmm : Vmm} (h : vmm.Apart) {i : Fin vmas} {virt : Word}
    (hi : (vmm.vma i).covers (virt >>> pageWidth) = true) :
    vmmMappingFind vmm virt = .ok ((vmm.vma i).phys virt) := by
  obtain ⟨j, hj⟩ := Vmm.findSlot_isSome (p := fun a => a.covers (virt >>> pageWidth)) i hi
  have hcov := Vmm.findSlot_some (p := fun a => a.covers (virt >>> pageWidth)) hj
  obtain rfl := h.unique hcov hi
  simp only [vmmMappingFind, hj]
  rfl

theorem vmmMappingFind_of_not_covers {vmm : Vmm} {virt : Word}
    (h : ∀ i, (vmm.vma i).covers (virt >>> pageWidth) = false) :
    vmmMappingFind vmm virt = .error .einval := by
  have hnone := (Vmm.findSlot_eq_none (p := fun a => a.covers (virt >>> pageWidth))).mpr h
  simp only [vmmMappingFind, hnone]

/-- Two tables with disjoint areas translate an address alike when it is covered by the same slots,
with the same content. -/
theorem vmmMappingFind_congr {vmm vmm' : Vmm} (h : vmm.Apart) (h' : vmm'.Apart) {virt : Word}
    (hcov : ∀ i, (vmm.vma i).covers (virt >>> pageWidth) =
      (vmm'.vma i).covers (virt >>> pageWidth))
    (heq : ∀ i, (vmm.vma i).covers (virt >>> pageWidth) = true → vmm'.vma i = vmm.vma i) :
    vmmMappingFind vmm' virt = vmmMappingFind vmm virt := by
  by_cases hi : ∃ i, (vmm.vma i).covers (virt >>> pageWidth) = true
  · obtain ⟨i, hi⟩ := hi
    rw [vmmMappingFind_of_covers h hi, vmmMappingFind_of_covers h' (hcov i ▸ hi), heq i hi]
  · have hno : ∀ i, (vmm.vma i).covers (virt >>> pageWidth) = false := fun i =>
      Bool.eq_false_iff.mpr fun hc => hi ⟨i, hc⟩
    rw [vmmMappingFind_of_not_covers hno, vmmMappingFind_of_not_covers fun i => hcov i ▸ hno i]

/-! ### One slot is filled or emptied -/

variable {vmm : Vmm} {i : Fin vmas} {a : Vma} {virt : Word}

/-- The table with another content of slot `i`. -/
def Vmm.withSlot (vmm : Vmm) (i : Fin vmas) (a : Vma) : Vmm :=
  { vmm with vma := Function.update vmm.vma i a }

theorem Vmm.withSlot_self (vmm : Vmm) (i : Fin vmas) (a : Vma) : (vmm.withSlot i a).vma i = a := by
  simp [withSlot]

theorem Vmm.withSlot_of_ne {j : Fin vmas} (h : j ≠ i) (a : Vma) :
    (vmm.withSlot i a).vma j = vmm.vma j := by
  simp [withSlot, h]

/-- A new area beside the others. -/
theorem Vmm.Apart.fill (h : vmm.Apart)
    (hnew : ∀ j, (vmm.vma j).valid = true → Disjoint a.pages (vmm.vma j).pages) :
    (vmm.withSlot i a).Apart := by
  intro j k hjk hvj hvk
  by_cases hj : j = i
  · subst hj
    rw [withSlot_self, withSlot_of_ne hjk.symm] at *
    exact hnew k hvk
  · rw [withSlot_of_ne hj] at *
    by_cases hk : k = i
    · subst hk
      rw [withSlot_self] at *
      exact (hnew j hvj).symm
    · rw [withSlot_of_ne hk] at *
      exact h j k hjk hvj hvk

/-- **An area more**: its pages are translated by it, all others as before. -/
theorem Vmm.Apart.find_fill (h : vmm.Apart) (hfree : (vmm.vma i).valid = false)
    (ha : a.valid = true) (hend : a.vpnBase.toNat + a.count.toNat < 2 ^ 32)
    (hnew : ∀ j, (vmm.vma j).valid = true → Disjoint a.pages (vmm.vma j).pages) :
    vmmMappingFind (vmm.withSlot i a) virt =
      if (virt >>> pageWidth).toNat ∈ a.pages then .ok (a.phys virt) else vmmMappingFind vmm virt := by
  have h' : (vmm.withSlot i a).Apart := h.fill hnew
  split
  · next hin =>
    have hcov : ((vmm.withSlot i a).vma i).covers (virt >>> pageWidth) = true := by
      rw [withSlot_self]
      exact Vma.covers_of_mem_pages ha hend hin
    rw [vmmMappingFind_of_covers h' hcov, withSlot_self]
  · next hout =>
    have hi : (vmm.vma i).covers (virt >>> pageWidth) = false := by
      simp [Vma.covers, hfree]
    refine vmmMappingFind_congr h h' (fun j => ?_) fun j hj => ?_
    · by_cases hji : j = i
      · subst hji
        rw [withSlot_self, hi]
        exact (Bool.eq_false_iff.mpr fun hc => hout (Vma.mem_pages_of_covers hc).2).symm
      · rw [withSlot_of_ne hji]
    · have hji : j ≠ i := fun hji => by rw [hji, hi] at hj; cases hj
      exact withSlot_of_ne hji a

theorem Vmm.Nonempty.fill (h : vmm.Nonempty) (ha : a.count ≠ 0) : (vmm.withSlot i a).Nonempty := by
  intro j hj
  by_cases hji : j = i
  · rw [hji, withSlot_self]
    exact ha
  · rw [withSlot_of_ne hji] at *
    exact h j hj

/-- Two areas with pages that start alike are one. -/
theorem Vmm.Apart.unique_base (h : vmm.Apart) (hpages : vmm.Nonempty) {j : Fin vmas}
    (hi : (vmm.vma i).valid = true) (hj : (vmm.vma j).valid = true)
    (hbase : (vmm.vma i).vpnBase = (vmm.vma j).vpnBase) : i = j := by
  by_contra hne
  have hin : ∀ k, (vmm.vma k).valid = true → (vmm.vma k).vpnBase.toNat ∈ (vmm.vma k).pages := by
    intro k hk
    have hpos := hpages k hk
    simp only [Vma.pages, Set.mem_Ico]
    bv_omega
  exact Set.disjoint_left.mp (h i j hne hi hj) (hin i hi) (hbase ▸ hin j hj)

/-- The area of slot `i`, no longer valid. -/
def Vma.removed (a : Vma) : Vma := { a with valid := false }

theorem Vmm.Apart.clear (h : vmm.Apart) (i : Fin vmas) :
    (vmm.withSlot i (vmm.vma i).removed).Apart := by
  intro j k hjk hvj hvk
  by_cases hj : j = i
  · subst hj
    rw [withSlot_self] at hvj
    cases hvj
  by_cases hk : k = i
  · subst hk
    rw [withSlot_self] at hvk
    cases hvk
  rw [withSlot_of_ne hj] at *
  rw [withSlot_of_ne hk] at *
  exact h j k hjk hvj hvk

theorem Vmm.Nonempty.clear (h : vmm.Nonempty) (i : Fin vmas) :
    (vmm.withSlot i (vmm.vma i).removed).Nonempty := by
  intro j hj
  by_cases hji : j = i
  · subst hji
    rw [withSlot_self] at hj
    cases hj
  · rw [withSlot_of_ne hji] at *
    exact h j hj

/-- **An area less**: its pages are not translated any more, all others as before. -/
theorem Vmm.Apart.find_clear (h : vmm.Apart) (hvalid : (vmm.vma i).valid = true) :
    vmmMappingFind (vmm.withSlot i (vmm.vma i).removed) virt =
      if (virt >>> pageWidth).toNat ∈ (vmm.vma i).pages then .error .einval
      else vmmMappingFind vmm virt := by
  have hgone : ((vmm.withSlot i (vmm.vma i).removed).vma i).covers (virt >>> pageWidth) = false := by
    rw [withSlot_self]
    rfl
  split
  · next hin =>
    refine vmmMappingFind_of_not_covers fun j => ?_
    by_cases hji : j = i
    · rw [hji, hgone]
    · rw [withSlot_of_ne hji, Bool.eq_false_iff]
      intro hc
      obtain ⟨hvj, hpj⟩ := Vma.mem_pages_of_covers hc
      exact Set.disjoint_left.mp (h j i hji hvj hvalid) hpj hin
  · next hout =>
    have hi : (vmm.vma i).covers (virt >>> pageWidth) = false :=
      Bool.eq_false_iff.mpr fun hc => hout (Vma.mem_pages_of_covers hc).2
    refine vmmMappingFind_congr h (h.clear i) (fun j => ?_) fun j hj => ?_
    · by_cases hji : j = i
      · rw [hji, hgone, hi]
      · rw [withSlot_of_ne hji]
    · have hji : j ≠ i := fun hji => by rw [hji, hi] at hj; cases hj
      exact withSlot_of_ne hji _

/-! ### Address ranges -/

/-- The address is one of the `size` bytes from `va` on. -/
def InRange (va size virt : Word) : Prop :=
  va.toNat ≤ virt.toNat ∧ virt.toNat < va.toNat + size.toNat

instance (va size virt : Word) : Decidable (InRange va size virt) :=
  inferInstanceAs (Decidable (_ ∧ _))

/-- The area that `vma_map` writes into a slot. -/
def newVma (va phys size : Word) : Vma :=
  ⟨va >>> pageWidth, phys >>> frameWidth, size >>> pageWidth, true⟩

theorem mem_pages_newVma {va phys size : Word} (hva : va.toNat % 4096 = 0)
    (hsize : size.toNat % 4096 = 0) (virt : Word) :
    (virt >>> pageWidth).toNat ∈ (newVma va phys size).pages ↔ InRange va size virt := by
  simp only [newVma, Vma.pages, Set.mem_Ico, InRange, toNat_shiftRight_page]
  omega

/-- An area over aligned frames translates at the offset from its start. -/
theorem phys_newVma {va phys size virt : Word} (hphys : phys.toNat % 4096 = 0)
    (hva : va.toNat % 4096 = 0) (hle : va.toNat ≤ virt.toNat) :
    (newVma va phys size).phys virt = phys + (virt - va) := by
  apply BitVec.eq_of_toNat_eq
  have hlt := virt.isLt
  have hpage : (virt >>> pageWidth - va >>> pageWidth).toNat = virt.toNat / 4096 - va.toNat / 4096 := by
    have h1 := toNat_shiftRight_page virt
    have h2 := toNat_shiftRight_page va
    bv_omega
  have hframe : (phys >>> frameWidth + (virt >>> pageWidth - va >>> pageWidth)).toNat =
      phys.toNat / 4096 + (virt.toNat / 4096 - va.toNat / 4096) := by
    have hp := phys.isLt
    have h3 : (phys >>> frameWidth).toNat = phys.toNat / 4096 := toNat_shiftRight_page phys
    rw [BitVec.toNat_add, hpage, h3]
    omega
  have hshift : ((phys >>> frameWidth + (virt >>> pageWidth - va >>> pageWidth)) <<< frameWidth).toNat =
      (phys.toNat / 4096 + (virt.toNat / 4096 - va.toNat / 4096)) * 4096 % 2 ^ 32 := by
    have h4 := toNat_shiftLeft_page (phys >>> frameWidth + (virt >>> pageWidth - va >>> pageWidth))
    rw [hframe] at h4
    exact h4
  have hsub : (virt - va).toNat = virt.toNat - va.toNat := by bv_omega
  simp only [newVma, Vma.phys]
  rw [BitVec.toNat_add, hshift, and_pageMask_toNat, BitVec.toNat_add, hsub]
  omega

namespace Machine

/-- What `vma_map` has checked when it returns `EOK`, and the address it used. -/
theorem vmaMap_address {m m' : Machine} {va size flags va' : Word} {answer : Except Errno Word}
    (h : m.vmaMap va size flags answer = .ok (m', .eok, va')) :
    size.toNat % 4096 = 0 ∧ va'.toNat % 4096 = 0 ∧ ∃ v, m.currentVmm = some v ∧
      (flags &&& vfVaAuto = vfVaAuto →
        autoVpn (m.vmm v) ≠ 0 ∧ va' = autoVpn (m.vmm v) <<< pageWidth) := by
  -- the second half has checked the address it was given
  have hat : ∀ {v : ℕ} {va₁ : Word},
      (m.disable.2.vmaMapAt v va₁ (size >>> pageWidth) answer).2 = (.eok, va') →
        va'.toNat % 4096 = 0 ∧ va' = va₁ := by
    intro v va₁ hr
    simp only [vmaMapAt] at hr
    split at hr
    · cases hr
    · next hal =>
      obtain rfl : va₁ = va' := congrArg Prod.snd hr
      exact ⟨(alignDown_page_eq_self va₁).mp (not_not.mp hal), rfl⟩
  simp only [vmaMap] at h
  split at h
  · cases h
  split at h
  · cases h
  next hsize =>
  have hsize' := (alignDown_page_eq_self size).mp (not_not.mp hsize)
  split at h
  · cases h
  split at h
  · cases h
  next v hv =>
  rw [disable_currentVmm] at hv
  split at h
  · split at h
    · cases h
    · next hvpn =>
      simp only [Except.ok.injEq, Prod.mk.injEq] at h
      obtain ⟨hal, heq⟩ := hat (Prod.ext h.2.1 h.2.2)
      exact ⟨hsize', hal, v, hv, fun _ => ⟨hvpn, heq⟩⟩
  · next hauto =>
    simp only [Except.ok.injEq, Prod.mk.injEq] at h
    obtain ⟨hal, -⟩ := hat (Prod.ext h.2.1 h.2.2)
    exact ⟨hsize', hal, v, hv, fun hf => absurd (beq_iff_eq.mpr hf) hauto⟩

theorem setSlot_vmm (m : Machine) (v : ℕ) (i : Fin vmas) (a : Vma) :
    (m.setSlot (v, i) a).vmm v = (m.vmm v).withSlot i a := by
  simp [setSlot, Vmm.withSlot]

theorem setSlot_vmm_of_ne {v w : ℕ} (h : w ≠ v) (m : Machine) (i : Fin vmas) (a : Vma) :
    (m.setSlot (v, i) a).vmm w = m.vmm w := by
  simp [setSlot, h]

/-- The range of `vma_map` overlaps no area of the map. -/
def RangeFree (vmm : Vmm) (va size : Word) : Prop :=
  ∀ i, (vmm.vma i).valid = true →
    Disjoint (Set.Ico (va.toNat / 4096) (va.toNat / 4096 + size.toNat / 4096)) (vmm.vma i).pages

theorem pages_newVma (va phys size : Word) : (newVma va phys size).pages =
    Set.Ico (va.toNat / 4096) (va.toNat / 4096 + size.toNat / 4096) := by
  simp only [newVma, Vma.pages, toNat_shiftRight_page]

variable {m m' : Machine} {v : ℕ} {va va' size flags : Word} {rc : Errno}

/-- **`vma_map` that returns `EOK`** adds an area. -/
theorem vmaMap_translates {answer : Except Errno Word} (hv : m.currentVmm = some v)
    (hapart : (m.vmm v).Apart) (hpages : (m.vmm v).Nonempty) (hpos : 0 < size.toNat)
    (hans : answer ≠ .error .eok) (hframes : ∀ phys, answer = .ok phys → phys.toNat % 4096 = 0)
    (h : m.vmaMap va size flags answer = .ok (m', .eok, va')) (hfree : RangeFree (m.vmm v) va' size) :
    (m'.vmm v).Apart ∧ (m'.vmm v).Nonempty ∧ (∀ w, w ≠ v → m'.vmm w = m.vmm w) ∧
    ∃ phys, answer = .ok phys ∧
      m'.frameCalls = .alloc ⟨phys, size >>> pageWidth⟩ :: m.frameCalls ∧
      ∀ virt, vmmMappingFind (m'.vmm v) virt =
        if InRange va' size virt then .ok (phys + (virt - va')) else vmmMappingFind (m.vmm v) virt := by
  obtain ⟨hsize, hva, -⟩ := vmaMap_address h
  rcases vmaMap_cases h with ⟨-, hrc | hrc | hrc⟩ | ⟨u, i, phys, hu, hi, rfl, -, rfl⟩
  · cases hrc
  · cases hrc
  · exact absurd hrc hans
  obtain rfl : u = v := Option.some.inj (hu.symm.trans hv)
  have hphys := hframes phys rfl
  have hnew : ∀ j, ((m.vmm u).vma j).valid = true →
      Disjoint (newVma va' phys size).pages ((m.vmm u).vma j).pages := fun j hj => by
    rw [pages_newVma]
    exact hfree j hj
  have hend : (newVma va' phys size).vpnBase.toNat + (newVma va' phys size).count.toNat < 2 ^ 32 := by
    simp only [newVma, toNat_shiftRight_page]
    omega
  have hcount : (newVma va' phys size).count ≠ 0 := by
    intro hzero
    have := congrArg BitVec.toNat hzero
    simp only [newVma, toNat_shiftRight_page, BitVec.ofNat_eq_ofNat, BitVec.toNat_ofNat] at this
    omega
  refine ⟨?_, ?_, fun w hw => setSlot_vmm_of_ne hw _ _ _, phys, rfl, rfl, fun virt => ?_⟩
  · rw [setSlot_vmm]
    exact hapart.fill hnew
  · rw [setSlot_vmm]
    exact hpages.fill hcount
  · rw [setSlot_vmm]
    refine (hapart.find_fill hi rfl hend hnew).trans ?_
    simp only [mem_pages_newVma hva hsize]
    split
    · next hin => rw [phys_newVma hphys hva hin.1]
    · rfl

/-- **`vma_unmap` that returns `EOK`** takes the area away that starts at its argument. -/
theorem vmaUnmap_translates {answer : Errno} (hv : m.currentVmm = some v)
    (hapart : (m.vmm v).Apart) (hpages : (m.vmm v).Nonempty)
    (h : m.vmaUnmap va answer = .ok (m', .eok)) :
    (m'.vmm v).Apart ∧ (m'.vmm v).Nonempty ∧ (∀ w, w ≠ v → m'.vmm w = m.vmm w) ∧
    ∃ i, (((m.vmm v).vma i).valid = true ∧ ((m.vmm v).vma i).vpnBase = va >>> pageWidth) ∧
      ∀ virt, vmmMappingFind (m'.vmm v) virt =
        if (virt >>> pageWidth).toNat ∈ ((m.vmm v).vma i).pages then .error .einval
        else vmmMappingFind (m.vmm v) virt := by
  rcases vmaUnmap_cases h with ⟨-, hrc⟩ | ⟨u, i, hu, hvalid, hbase, rfl, ⟨hne, -⟩ | ⟨-, rfl⟩⟩
  · cases hrc
  · exact absurd rfl hne
  obtain rfl : u = v := Option.some.inj (hu.symm.trans hv)
  have hvmm : (m.release (u, i) (va >>> pageWidth)).vmm u =
      (m.vmm u).withSlot i ((m.vmm u).vma i).removed := setSlot_vmm _ _ _ _
  refine ⟨?_, ?_, fun w hw => setSlot_vmm_of_ne hw _ _ _, i, ⟨hvalid, hbase⟩, fun virt => ?_⟩
  · rw [hvmm]
    exact hapart.clear i
  · rw [hvmm]
    exact hpages.clear i
  · rw [hvmm]
    exact hapart.find_clear hvalid

/-- `vma_unmap` returns `EINVAL` for an address that is not aligned or starts no area. -/
theorem vmaUnmap_einval_iff (hv : m.currentVmm = some v) (h : m.vmaUnmap va .eok = .ok (m', rc)) :
    rc = .einval ↔ va.toNat % 4096 ≠ 0 ∨
      ∀ i, ((m.vmm v).vma i).valid = true → ((m.vmm v).vma i).vpnBase ≠ va >>> pageWidth := by
  rcases vmaUnmap_cases h with ⟨-, rfl⟩ | ⟨u, i, hu, hvalid, hbase, rfl, -⟩
  · refine ⟨fun _ => ?_, fun _ => rfl⟩
    by_contra hcon
    obtain ⟨hal, hstart⟩ := not_or.mp hcon
    have hal' := (alignDown_page_eq_self va).mpr (not_not.mp hal)
    push Not at hstart
    obtain ⟨i, hvalid, hbase⟩ := hstart
    obtain ⟨j, hj⟩ := Vmm.findSlot_isSome (p := fun a => a.valid && a.vpnBase == va >>> pageWidth) i
      (show ((m.vmm v).vma i).valid && ((m.vmm v).vma i).vpnBase == va >>> pageWidth by
        simp [hvalid, hbase])
    simp only [vmaUnmap, hal', ne_eq, not_true_eq_false, if_false, disable_currentVmm, hv,
      vmaUnmapSlot, disable_vmm, hj] at h
    cases h
  · obtain rfl : u = v := Option.some.inj (hu.symm.trans hv)
    have hal : alignDown va pageSize = va := by
      by_contra hne
      simp only [vmaUnmap, ne_eq, hne, not_false_eq_true, if_true] at h
      cases h
    constructor
    · intro hrc
      cases hrc
    · rintro (hne | hno)
      · exact absurd ((alignDown_page_eq_self va).mp hal) hne
      · exact absurd hbase (hno i hvalid)

/-- A call of `vma_map` that fails leaves the maps and the frames as they are. -/
theorem vmaMap_error {answer : Except Errno Word}
    (h : m.vmaMap va size flags answer = .ok (m', rc, va')) (hrc : rc ≠ .eok) : m' = m := by
  rcases vmaMap_cases h with ⟨h, -⟩ | ⟨-, -, -, -, -, -, h, -⟩
  · exact h
  · exact absurd h hrc

theorem vmaUnmap_error {answer : Errno} (h : m.vmaUnmap va answer = .ok (m', rc)) (hrc : rc ≠ .eok) :
    m'.vmm = m.vmm ∧ outstanding m'.frameCalls = outstanding m.frameCalls := by
  rcases vmaUnmap_cases h with ⟨rfl, -⟩ | ⟨u, i, -, -, -, rfl, ⟨hne, rfl⟩ | ⟨heq, -⟩⟩
  · exact ⟨rfl, rfl⟩
  · refine ⟨rfl, ?_⟩
    simp only [logCall, outstanding, hne, if_false]
  · exact absurd heq hrc

/-- **The table refines a partial map.**  Over a current map whose areas have pages and are apart:
`vma_map` that returns `EOK` with a range that overlaps no area translates the addresses of the range
to the new frames, at the same offset, and all others as before; `vma_unmap` that returns `EOK` takes
away the addresses of the one area that starts at its argument; with a frame allocator that accepts the
frames it returns `EINVAL` exactly when its argument is not aligned or starts no area; and calls that
fail change no translation and no frame. -/
theorem vma_table_refines (m : Machine) (v : ℕ) (hv : m.currentVmm = some v)
    (hapart : (m.vmm v).Apart) (hpages : (m.vmm v).Nonempty) :
    (∀ va size flags answer m' va', 0 < size.toNat → answer ≠ .error .eok →
      (∀ phys, answer = .ok phys → phys.toNat % 4096 = 0) →
      m.vmaMap va size flags answer = .ok (m', .eok, va') → RangeFree (m.vmm v) va' size →
      (m'.vmm v).Apart ∧ (m'.vmm v).Nonempty ∧ (∀ w, w ≠ v → m'.vmm w = m.vmm w) ∧
      ∃ phys, answer = .ok phys ∧
        m'.frameCalls = .alloc ⟨phys, size >>> pageWidth⟩ :: m.frameCalls ∧
        ∀ virt, vmmMappingFind (m'.vmm v) virt =
          if InRange va' size virt then .ok (phys + (virt - va'))
          else vmmMappingFind (m.vmm v) virt) ∧
    (∀ va answer m', m.vmaUnmap va answer = .ok (m', .eok) →
      (m'.vmm v).Apart ∧ (m'.vmm v).Nonempty ∧ (∀ w, w ≠ v → m'.vmm w = m.vmm w) ∧
      ∃! i, (((m.vmm v).vma i).valid = true ∧ ((m.vmm v).vma i).vpnBase = va >>> pageWidth) ∧
        ∀ virt, vmmMappingFind (m'.vmm v) virt =
          if (virt >>> pageWidth).toNat ∈ ((m.vmm v).vma i).pages then .error .einval
          else vmmMappingFind (m.vmm v) virt) ∧
    (∀ va m' rc, m.vmaUnmap va .eok = .ok (m', rc) →
      (rc = .einval ↔ va.toNat % 4096 ≠ 0 ∨
        ∀ i, ((m.vmm v).vma i).valid = true → ((m.vmm v).vma i).vpnBase ≠ va >>> pageWidth)) ∧
    (∀ va size flags answer m' rc va', m.vmaMap va size flags answer = .ok (m', rc, va') →
      rc ≠ .eok → m'.vmm = m.vmm ∧ outstanding m'.frameCalls = outstanding m.frameCalls) ∧
    ∀ va answer m' rc, m.vmaUnmap va answer = .ok (m', rc) → rc ≠ .eok →
      m'.vmm = m.vmm ∧ outstanding m'.frameCalls = outstanding m.frameCalls := by
  refine ⟨?_, ?_, ?_, ?_, fun va answer m' rc h hrc => vmaUnmap_error h hrc⟩
  · intro va size flags answer m' va' hpos hans hframes h hfree
    exact vmaMap_translates hv hapart hpages hpos hans hframes h hfree
  · intro va answer m' h
    obtain ⟨hapart', hpages', hother, i, hi, hfind⟩ := vmaUnmap_translates hv hapart hpages h
    refine ⟨hapart', hpages', hother, i, ⟨hi, hfind⟩, ?_⟩
    rintro j ⟨⟨hvalid, hbase⟩, -⟩
    exact hapart.unique_base hpages hvalid hi.1 (hbase.trans hi.2.symm)
  · intro va m' rc h
    exact vmaUnmap_einval_iff hv h
  · intro va size flags answer m' rc va' h hrc
    rw [vmaMap_error h hrc]
    exact ⟨rfl, rfl⟩

/-- Nothing else is mapped in `onePage`. -/
theorem onePage_valid {i : Fin vmas} (hi : ((onePage.vmm 0).vma i).valid = true) :
    i = ⟨0, by decide⟩ := by
  by_contra hne
  have hzero : (onePage.vmm 0).vma i = Vma.zero := Function.update_of_ne hne _ _
  rw [hzero] at hi
  cases hi

/-- Two pages more at `0x5000`: the new addresses and the old ones. -/
theorem vma_table_refines_onePage :
    ∃ m' va', onePage.vmaMap 0x5000 0x2000 vfVaUser (.ok 0x200000) = .ok (m', .eok, va') ∧
      vmmMappingFind (m'.vmm 0) 0x6234 = .ok 0x201234 ∧
      vmmMappingFind (m'.vmm 0) 0x1234 = vmmMappingFind (onePage.vmm 0) 0x1234 := by
  have hapart : (onePage.vmm 0).Apart := fun i j hne hi hj =>
    absurd ((onePage_valid hi).trans (onePage_valid hj).symm) hne
  have hpages : (onePage.vmm 0).Nonempty := fun i hi => by
    rw [onePage_valid hi]
    decide
  have hfree : RangeFree (onePage.vmm 0) 0x5000 0x2000 := fun i hi => by
    have hpage : ((onePage.vmm 0).vma i).pages = Set.Ico 1 2 := by
      rw [onePage_valid hi]
      rfl
    rw [hpage, Set.Ico_disjoint_Ico]
    decide
  obtain ⟨hmap, -⟩ := vma_table_refines onePage 0 rfl hapart hpages
  obtain ⟨-, -, -, phys, hphys, -, hfind⟩ := hmap 0x5000 0x2000 vfVaUser (.ok 0x200000) _ 0x5000
    (by decide) (by simp) (fun phys h => by cases h; decide) rfl hfree
  cases hphys
  exact ⟨_, _, rfl, hfind 0x6234, hfind 0x1234⟩

end Machine

/-! ### The search for an unmapped range -/

/-- What one slot adds to the search: the end of a valid area that starts below page `0x40000`. -/
def Vma.lowEnd (a : Vma) : ℕ :=
  if a.valid && decide (a.vpnBase < 0x40000#32) then a.vpnBase.toNat + a.count.toNat else 0

/-- The highest end of the areas that start below page `0x40000`. -/
def Vmm.lowEnd (vmm : Vmm) : ℕ := Finset.univ.sup fun i => (vmm.vma i).lowEnd

/-- `count` pages fit where the search looks: behind the low areas and below those it does not look at.
Low areas that reach the top of the address space leave the page 0, with every area above it. -/
def Vmm.AutoFits (vmm : Vmm) (count : ℕ) : Prop :=
  ∀ i, (vmm.vma i).valid = true → (vmm.vma i).count ≠ 0 →
    (0x40000 ≤ (vmm.vma i).vpnBase.toNat ∨ vmm.lowEnd = 2 ^ 20) →
      vmm.lowEnd % 2 ^ 20 + count ≤ (vmm.vma i).vpnBase.toNat

theorem Vmm.InSpace.lowEnd_le {vmm : Vmm} (h : vmm.InSpace) : vmm.lowEnd ≤ 2 ^ 20 := by
  refine Finset.sup_le fun i _ => ?_
  simp only [Vma.lowEnd]
  split
  · next hi => exact h i (Bool.and_eq_true _ _ ▸ hi).1
  · exact Nat.zero_le _

/-- The loop takes the larger of the two at every slot. -/
theorem autoVpn_fold {vmm : Vmm} (h : vmm.InSpace) (l : List (Fin vmas)) (vpn : Word) :
    (l.foldl (fun vpn i =>
      if (vmm.vma i).valid && decide ((vmm.vma i).vpnBase < 0x40000#32) &&
          decide ((vmm.vma i).vpnBase + (vmm.vma i).count > vpn)
      then (vmm.vma i).vpnBase + (vmm.vma i).count else vpn) vpn).toNat =
      l.foldl (fun n i => max n (vmm.vma i).lowEnd) vpn.toNat := by
  induction l generalizing vpn with
  | nil => rfl
  | cons i l ih =>
    rw [List.foldl_cons, List.foldl_cons, ih]
    congr 1
    by_cases hlow : ((vmm.vma i).valid && decide ((vmm.vma i).vpnBase < 0x40000#32)) = true
    · have hin := h i (Bool.and_eq_true _ _ ▸ hlow).1
      simp only [hlow, Vma.lowEnd, Bool.true_and, decide_eq_true_eq, if_true]
      split <;> bv_omega
    · simp [hlow, Vma.lowEnd]

theorem autoVpn_toNat {vmm : Vmm} (h : vmm.InSpace) : (autoVpn vmm).toNat = vmm.lowEnd := by
  have hfold : ∀ (l : List (Fin vmas)) (n : ℕ), l.foldl (fun n i => max n (vmm.vma i).lowEnd) n =
      max n (l.toFinset.sup fun i => (vmm.vma i).lowEnd) := by
    intro l
    induction l with
    | nil => simp
    | cons i l ih =>
      intro n
      rw [List.foldl_cons, ih, List.toFinset_cons, Finset.sup_insert]
      exact max_assoc _ _ _
  rw [autoVpn, autoVpn_fold h, hfold, Vmm.lowEnd]
  have huniv : (List.finRange vmas).toFinset = Finset.univ := by
    ext i
    simp
  rw [huniv]
  exact Nat.zero_max _

/-- An area from page `0x40000` on is behind the low areas. -/
theorem Vmm.Apart.lowEnd_le {vmm : Vmm} (h : vmm.Apart) {i : Fin vmas}
    (hi : (vmm.vma i).valid = true) (hcount : (vmm.vma i).count ≠ 0)
    (hhigh : 0x40000 ≤ (vmm.vma i).vpnBase.toNat) : vmm.lowEnd ≤ (vmm.vma i).vpnBase.toNat := by
  refine Finset.sup_le fun j _ => ?_
  simp only [Vma.lowEnd]
  split
  · next hj =>
    simp only [Bool.and_eq_true, decide_eq_true_eq] at hj
    by_contra hlt
    have hne : j ≠ i := by
      rintro rfl
      bv_omega
    -- its first page would be in area `j` as well
    have hfirst : (vmm.vma i).vpnBase.toNat ∈ (vmm.vma j).pages := by
      simp only [Vma.pages, Set.mem_Ico]
      bv_omega
    have hself : (vmm.vma i).vpnBase.toNat ∈ (vmm.vma i).pages := by
      simp only [Vma.pages, Set.mem_Ico]
      bv_omega
    exact Set.disjoint_left.mp (h j i hne hj.1 hi) hfirst hself
  · exact Nat.zero_le _

/-- A range from the start page of the search overlaps no area exactly when it fits. -/
theorem autoFits_iff {vmm : Vmm} (hapart : vmm.Apart) (hspace : vmm.InSpace) {count : ℕ}
    (hpos : 0 < count) :
    vmm.AutoFits count ↔ ∀ i, (vmm.vma i).valid = true →
      Disjoint (Set.Ico (vmm.lowEnd % 2 ^ 20) (vmm.lowEnd % 2 ^ 20 + count)) (vmm.vma i).pages := by
  refine forall_congr' fun i => imp_congr_right fun hi => ?_
  have htop := hspace.lowEnd_le
  have hin := hspace i hi
  rw [Vma.pages, Set.Ico_disjoint_Ico]
  by_cases hzero : (vmm.vma i).count = 0
  · simp [hzero]
  have hcount : 0 < (vmm.vma i).count.toNat := by bv_omega
  simp only [ne_eq, hzero, not_false_eq_true, true_imp_iff]
  rcases Nat.lt_or_eq_of_le htop with hlt | heq
  · rw [Nat.mod_eq_of_lt hlt]
    by_cases hhigh : 0x40000 ≤ (vmm.vma i).vpnBase.toNat
    · have hbehind := hapart.lowEnd_le hi hzero hhigh
      simp only [hhigh, true_or, true_imp_iff]
      omega
    · -- a low area ends where the range starts, or before
      have hle : (vmm.vma i).lowEnd ≤ vmm.lowEnd :=
        Finset.le_sup (f := fun j => (vmm.vma j).lowEnd) (Finset.mem_univ i)
      have hlow : (vmm.vma i).vpnBase < 0x40000#32 := by bv_omega
      simp only [Vma.lowEnd, hi, hlow, decide_true, Bool.and_self, if_true] at hle
      simp only [hhigh, hlt.ne, or_self, false_imp_iff, true_iff]
      omega
  · simp only [heq, or_true, true_imp_iff, Nat.mod_self]
    omega

namespace Machine

/-- **When `VF_VA_AUTO` chooses a range that overlaps nothing.**  Exactly when the pages asked for fit
between the areas that start below page `0x40000` and those from there on. -/
theorem auto_placement_iff {m m' : Machine} {v : ℕ} {va va' size flags : Word}
    {answer : Except Errno Word} (hv : m.currentVmm = some v) (hapart : (m.vmm v).Apart)
    (hspace : (m.vmm v).InSpace) (hpos : 0 < size.toNat) (hauto : flags &&& vfVaAuto = vfVaAuto)
    (h : m.vmaMap va size flags answer = .ok (m', .eok, va')) :
    va'.toNat % 4096 = 0 ∧
      (RangeFree (m.vmm v) va' size ↔ (m.vmm v).AutoFits (size.toNat / 4096)) := by
  obtain ⟨hsize, hva, u, hu, hchosen⟩ := vmaMap_address h
  obtain rfl : u = v := Option.some.inj (hu.symm.trans hv)
  obtain ⟨-, rfl⟩ := hchosen hauto
  refine ⟨hva, ?_⟩
  have hstart : (autoVpn (m.vmm u) <<< pageWidth).toNat / 4096 = (m.vmm u).lowEnd % 2 ^ 20 := by
    rw [toNat_shiftLeft_page, autoVpn_toNat hspace]
    omega
  rw [autoFits_iff hapart hspace (by omega), RangeFree, hstart]

theorem one_lt_vmas : 1 < vmas := by decide

/-- Two areas of one page, on both sides of the address `0x40000000`. -/
def aroundLimit : Machine :=
  (onePage.setSlot (0, ⟨0, zero_lt_vmas⟩) ⟨0x3FFFF, 0x100, 1, true⟩).setSlot (0, ⟨1, one_lt_vmas⟩)
    ⟨0x40000, 0x101, 1, true⟩

theorem aroundLimit_valid {i : Fin vmas} (hi : ((aroundLimit.vmm 0).vma i).valid = true) :
    i = ⟨0, by decide⟩ ∨ i = ⟨1, by decide⟩ := by
  by_contra hne
  obtain ⟨h0, h1⟩ := not_or.mp hne
  have hzero : (aroundLimit.vmm 0).vma i = Vma.zero :=
    (Function.update_of_ne h1 _ _).trans
      ((Function.update_of_ne h0 _ _).trans (Function.update_of_ne h0 _ _))
  rw [hzero] at hi
  cases hi

theorem aroundLimit_apart : (aroundLimit.vmm 0).Apart := by
  have hdisj : Disjoint (Set.Ico 0x3FFFF 0x40000 : Set ℕ) (Set.Ico 0x40000 0x40001) := by
    rw [Set.Ico_disjoint_Ico]
    decide
  intro i j hne hi hj
  rcases aroundLimit_valid hi with rfl | rfl <;> rcases aroundLimit_valid hj with rfl | rfl
  · exact absurd rfl hne
  · exact hdisj
  · exact hdisj.symm
  · exact absurd rfl hne

theorem aroundLimit_inSpace : (aroundLimit.vmm 0).InSpace := by
  intro i hi
  rcases aroundLimit_valid hi with rfl | rfl <;> decide

/-- **The search hands out a page that is mapped.** -/
theorem auto_placement_overlaps :
    (aroundLimit.vmm 0).Apart ∧ (aroundLimit.vmm 0).InSpace ∧
      ∃ m', aroundLimit.vmaMap 0 0x1000 vfVaAuto (.ok 0x200000) = .ok (m', .eok, 0x40000000) ∧
        ¬ RangeFree (aroundLimit.vmm 0) 0x40000000 0x1000 := by
  refine ⟨aroundLimit_apart, aroundLimit_inSpace, _, rfl, fun hfree => ?_⟩
  have hdisj := hfree ⟨1, by decide⟩ rfl
  have hin : (0x40000 : ℕ) ∈ ((aroundLimit.vmm 0).vma ⟨1, by decide⟩).pages := by decide
  exact Set.disjoint_left.mp hdisj (by decide) hin

/-- With the area at `0x1000` alone, the next page is free. -/
theorem auto_placement_onePage :
    ∃ m', onePage.vmaMap 0 0x1000 vfVaAuto (.ok 0x200000) = .ok (m', .eok, 0x2000) ∧
      RangeFree (onePage.vmm 0) 0x2000 0x1000 := by
  have hapart : (onePage.vmm 0).Apart := fun i j hne hi hj =>
    absurd ((onePage_valid hi).trans (onePage_valid hj).symm) hne
  have hspace : (onePage.vmm 0).InSpace := fun i hi => by
    rw [onePage_valid hi]
    decide
  have hfits : (onePage.vmm 0).AutoFits 1 := fun i hi _ hhigh => by
    rw [onePage_valid hi] at hhigh
    have hend := autoVpn_toNat hspace
    have hval : (autoVpn (onePage.vmm 0)).toNat = 2 := by decide
    rcases hhigh with hhigh | hhigh
    · exact absurd hhigh (by decide)
    · omega
  have hcall : ∃ m', onePage.vmaMap 0 0x1000 vfVaAuto (.ok 0x200000) = .ok (m', .eok, 0x2000) :=
    ⟨_, rfl⟩
  obtain ⟨m', hcall⟩ := hcall
  exact ⟨m', hcall, (auto_placement_iff rfl hapart hspace (by decide) rfl hcall).2.mpr hfits⟩

end Machine

end Kalisto
