import Kalisto.Include

/-!
# Virtual memory maps

The data of `mm/vmm.h` and the functions of `mm/vmm.c` that only read one virtual memory map: the
slot searches, `vma_check_user` and `vmm_mapping_find`.  The map they are given is
`thread_get_current ()->vmm`; the functions that change it are in `Kalisto.Mm.AddressSpace`.

The main results are about `vma_check_user`.  The check compares the first page and the page of
`addr + size` with one slot, and that sum is a 32-bit one:

* `vmaCheckUser_sound_iff` — an accepted buffer is mapped exactly when the sum does not wrap, or
  the buffer ends exactly at the top of the address space and every page up there is mapped; and an
  address and a size are safe in every map exactly when the sum does not wrap or the buffer is the
  tail of the last page;
* `vmaCheckUser_accepts_wrapped` — a process can make the check accept a buffer of almost the whole
  address space;
* `vmaCheckUser_complete_iff` — a buffer inside an area is accepted exactly when one of the areas that
  hold it does not end with it.
-/

namespace Kalisto

/-- `VMAS`: the number of areas one map can hold. -/
def vmas : ℕ := 100

/-- `struct vma`. -/
structure Vma where
  vpnBase : Word
  pfnBase : Word
  count : Word
  valid : Bool
  deriving DecidableEq

/-- `struct vmm`. -/
structure Vmm where
  asid : BitVec 8
  vma : Fin vmas → Vma

/-- The slot after `bzero`. -/
def Vma.zero : Vma := ⟨0, 0, 0, false⟩

/-- The area lookup of `vmm.c`: a valid slot whose pages, in wrapping arithmetic, include `vpn`. -/
def Vma.covers (a : Vma) (vpn : Word) : Bool :=
  a.valid && decide (a.vpnBase ≤ vpn) && decide (a.vpnBase + a.count > vpn)

/-- The `for` loops over `vma[i]` that stop at the first hit. -/
def Vmm.findSlot (vmm : Vmm) (p : Vma → Bool) : Option (Fin vmas) :=
  (List.finRange vmas).find? fun i => p (vmm.vma i)

theorem Vmm.findSlot_some {vmm : Vmm} {p : Vma → Bool} {i : Fin vmas}
    (h : vmm.findSlot p = some i) : p (vmm.vma i) = true :=
  List.find?_some (p := fun i => p (vmm.vma i)) h

theorem Vmm.findSlot_eq_none {vmm : Vmm} {p : Vma → Bool} :
    vmm.findSlot p = none ↔ ∀ i, p (vmm.vma i) = false := by
  simp [findSlot]

theorem Vmm.findSlot_isSome {vmm : Vmm} {p : Vma → Bool} (i : Fin vmas)
    (h : p (vmm.vma i) = true) : ∃ j, vmm.findSlot p = some j := by
  cases hf : vmm.findSlot p with
  | some j => exact ⟨j, rfl⟩
  | none => rw [Vmm.findSlot_eq_none.mp hf i] at h; cases h

/-- `vma_check_user`: one slot must hold the first page and the page of `addr + size`. -/
def vmaCheckUser (vmm : Vmm) (addr size : Word) : Bool :=
  let vpnStart := addr >>> pageWidth
  let vpnEnd := (addr + size) >>> pageWidth
  (List.finRange vmas).any fun i =>
    (vmm.vma i).valid &&
      decide ((vmm.vma i).vpnBase ≤ vpnStart) &&
      decide ((vmm.vma i).vpnBase + (vmm.vma i).count > vpnStart) &&
      decide ((vmm.vma i).vpnBase ≤ vpnEnd) &&
      decide ((vmm.vma i).vpnBase + (vmm.vma i).count > vpnEnd)

/-- `vmm_mapping_find`: the physical address, when it returns `EOK`. -/
def vmmMappingFind (vmm : Vmm) (virt : Word) : Except Errno Word :=
  let vpn := virt >>> pageWidth
  match vmm.findSlot fun a => a.covers vpn with
  | some i =>
    let pfn := (vmm.vma i).pfnBase + (vpn - (vmm.vma i).vpnBase)
    let offset := virt &&& (pageSize - 1)
    .ok ((pfn <<< frameWidth) + offset)
  | none => .error .einval

/-- The search of `vma_map` for an address above every area below `0x40000`. -/
def autoVpn (vmm : Vmm) : Word :=
  (List.finRange vmas).foldl (fun vpn i =>
    if (vmm.vma i).valid && decide ((vmm.vma i).vpnBase < 0x40000#32) &&
        decide ((vmm.vma i).vpnBase + (vmm.vma i).count > vpn)
    then (vmm.vma i).vpnBase + (vmm.vma i).count else vpn) 0

/-! ### Reading the two lookups -/

/-- `vmm_mapping_find` returns `EOK` for an address exactly when some slot covers its page. -/
def Vmm.translates (vmm : Vmm) (virt : Word) : Prop := ∃ phys, vmmMappingFind vmm virt = .ok phys

theorem Vmm.translates_iff (vmm : Vmm) (virt : Word) :
    vmm.translates virt ↔ ∃ i, (vmm.vma i).covers (virt >>> pageWidth) = true := by
  constructor
  · rintro ⟨phys, h⟩
    simp only [vmmMappingFind] at h
    split at h
    · rename_i i hi
      exact ⟨i, Vmm.findSlot_some (p := fun a => a.covers (virt >>> pageWidth)) hi⟩
    · cases h
  · rintro ⟨i, hi⟩
    obtain ⟨j, hj⟩ := Vmm.findSlot_isSome (p := fun a => a.covers (virt >>> pageWidth)) i hi
    exact ⟨_, by simp only [vmmMappingFind, hj]; rfl⟩

theorem vmaCheckUser_iff (vmm : Vmm) (addr size : Word) :
    vmaCheckUser vmm addr size = true ↔
      ∃ i, (vmm.vma i).covers (addr >>> pageWidth) = true ∧
        (vmm.vma i).covers ((addr + size) >>> pageWidth) = true := by
  simp only [vmaCheckUser, Vma.covers, List.any_eq_true, List.mem_finRange, true_and,
    Bool.and_eq_true, decide_eq_true_eq]
  constructor
  · rintro ⟨i, ⟨⟨⟨hv, h1⟩, h2⟩, h3⟩, h4⟩
    exact ⟨i, ⟨⟨hv, h1⟩, h2⟩, ⟨hv, h3⟩, h4⟩
  · rintro ⟨i, ⟨⟨hv, h1⟩, h2⟩, ⟨-, h3⟩, h4⟩
    exact ⟨i, ⟨⟨⟨hv, h1⟩, h2⟩, h3⟩, h4⟩

/-- A slot that covers two pages covers every page between them. -/
theorem Vma.covers_between {a : Vma} {p q r : Word} (hp : a.covers p = true)
    (hr : a.covers r = true) (hpq : p ≤ q) (hqr : q ≤ r) : a.covers q = true := by
  simp only [covers, Bool.and_eq_true, decide_eq_true_eq] at hp hr ⊢
  refine ⟨⟨hp.1.1, ?_⟩, ?_⟩
  · exact BitVec.le_trans hp.1.2 hpq
  · have := hr.2
    bv_omega

/-! ### Soundness of the user buffer check -/

/-- The buffer does not run past the top of the address space and each of its bytes is translated. -/
def Vmm.bufferMapped (vmm : Vmm) (addr size : Word) : Prop :=
  addr.toNat + size.toNat ≤ 2 ^ 32 ∧
    ∀ k : Word, k.toNat < size.toNat → vmm.translates (addr + k)

/-- What a caller of `vma_check_user` relies on. -/
def CheckUserSound (vmm : Vmm) (addr size : Word) : Prop :=
  vmaCheckUser vmm addr size = true → vmm.bufferMapped addr size

/-- Every page from `p` to the last page of the address space is covered. -/
def Vmm.mappedToTop (vmm : Vmm) (p : Word) : Prop :=
  ∀ q : Word, p ≤ q → q.toNat < 2 ^ 20 → ∃ i, (vmm.vma i).covers q = true

theorem page_add_toNat {addr k : Word} (h : addr.toNat + k.toNat < 2 ^ 32) :
    ((addr + k) >>> pageWidth).toNat = (addr.toNat + k.toNat) / 4096 := by
  rw [toNat_shiftRight_page, BitVec.toNat_add, Nat.mod_eq_of_lt h]

/-- Without a wrap, the slot that covers both ends covers the page of every byte. -/
theorem bufferMapped_of_noWrap {vmm : Vmm} {addr size : Word}
    (hc : vmaCheckUser vmm addr size = true) (h : addr.toNat + size.toNat < 2 ^ 32) :
    vmm.bufferMapped addr size := by
  refine ⟨by omega, fun k hk => ?_⟩
  obtain ⟨i, h1, h2⟩ := (vmaCheckUser_iff vmm addr size).mp hc
  rw [Vmm.translates_iff]
  refine ⟨i, Vma.covers_between h1 h2 ?_ ?_⟩
  · rw [BitVec.le_def, page_add_toNat (by omega), toNat_shiftRight_page]
    omega
  · rw [BitVec.le_def, page_add_toNat (by omega), page_add_toNat h]
    omega

/-- A buffer that ends exactly at the top is mapped when all its pages are. -/
theorem bufferMapped_of_mappedToTop {vmm : Vmm} {addr size : Word}
    (h : addr.toNat + size.toNat = 2 ^ 32) (hm : vmm.mappedToTop (addr >>> pageWidth)) :
    vmm.bufferMapped addr size := by
  refine ⟨by omega, fun k hk => ?_⟩
  rw [Vmm.translates_iff]
  apply hm
  · rw [BitVec.le_def, page_add_toNat (by omega), toNat_shiftRight_page]
    omega
  · rw [page_add_toNat (by omega)]
    omega

/-- The bytes of a buffer that ends at the top reach every page above its first one. -/
theorem mappedToTop_of_bufferMapped {vmm : Vmm} {addr size : Word}
    (h : addr.toNat + size.toNat = 2 ^ 32) (hb : vmm.bufferMapped addr size) :
    vmm.mappedToTop (addr >>> pageWidth) := by
  intro q hpq hq
  rw [BitVec.le_def, toNat_shiftRight_page] at hpq
  have ha := addr.isLt
  -- the last byte of page `q` belongs to the buffer
  let k : Word := BitVec.ofNat 32 (q.toNat * 4096 + 4095 - addr.toNat)
  have hk : k.toNat = q.toNat * 4096 + 4095 - addr.toNat := by
    simp only [k, BitVec.toNat_ofNat]
    omega
  have ht := hb.2 k (by omega)
  rw [Vmm.translates_iff] at ht
  have hpage : (addr + k) >>> pageWidth = q := by
    apply BitVec.eq_of_toNat_eq
    rw [page_add_toNat (by omega), hk]
    omega
  rwa [hpage] at ht

/-- **An accepted buffer is mapped exactly when its end does not wrap**, or it ends at the very top
of the address space and the rest of the pages up there are mapped as well. -/
theorem bufferMapped_iff {vmm : Vmm} {addr size : Word}
    (hc : vmaCheckUser vmm addr size = true) :
    vmm.bufferMapped addr size ↔
      addr.toNat + size.toNat < 2 ^ 32 ∨
        (addr.toNat + size.toNat = 2 ^ 32 ∧ vmm.mappedToTop (addr >>> pageWidth)) := by
  constructor
  · intro hb
    rcases Nat.lt_or_ge (addr.toNat + size.toNat) (2 ^ 32) with hlt | hge
    · exact Or.inl hlt
    · have heq : addr.toNat + size.toNat = 2 ^ 32 := le_antisymm hb.1 hge
      exact Or.inr ⟨heq, mappedToTop_of_bufferMapped heq hb⟩
  · rintro (h | ⟨h, hm⟩)
    · exact bufferMapped_of_noWrap hc h
    · exact bufferMapped_of_mappedToTop h hm

/-! ### The inputs on which the check is safe in every map -/

/-- A map with one kind of area: `n` pages at the bottom of the address space. -/
def bottomMap (n : Word) : Vmm where
  asid := 0
  vma := fun _ => ⟨0, 0, n, true⟩

theorem bottomMap_covers (n vpn : Word) (i : Fin vmas) :
    ((bottomMap n).vma i).covers vpn = true ↔ vpn < n := by
  have hz : (0#32 ≤ vpn) := by rw [BitVec.le_def]; exact Nat.zero_le _
  simp [bottomMap, Vma.covers, hz]

/-- When the sum wraps, the map whose only area ends with the first page of the buffer accepts
it: the wrapped end is not above the start. -/
theorem vmaCheckUser_bottomMap {addr size : Word} (h : 2 ^ 32 ≤ addr.toNat + size.toNat) :
    vmaCheckUser (bottomMap ((addr >>> pageWidth) + 1#32)) addr size = true := by
  rw [vmaCheckUser_iff]
  have ha := addr.isLt
  have hs := size.isLt
  have h1 : ((addr >>> pageWidth) + 1#32).toNat = addr.toNat / 4096 + 1 := by
    rw [BitVec.toNat_add, toNat_shiftRight_page]
    simp only [BitVec.toNat_ofNat]
    omega
  refine ⟨⟨0, by decide⟩, ?_, ?_⟩
  · rw [bottomMap_covers, BitVec.lt_def, h1, toNat_shiftRight_page]
    omega
  · rw [bottomMap_covers, BitVec.lt_def, h1, toNat_shiftRight_page, BitVec.toNat_add]
    omega

/-- That map covers nothing above the first page, so it does not reach the top unless the buffer
starts in the last page. -/
theorem not_mappedToTop_bottomMap {addr : Word} (h : addr.toNat < 0xFFFFF000) :
    ¬ (bottomMap ((addr >>> pageWidth) + 1#32)).mappedToTop (addr >>> pageWidth) := by
  intro hm
  obtain ⟨i, hi⟩ := hm 0xFFFFF#32
    (by rw [BitVec.le_def, toNat_shiftRight_page]; simp only [BitVec.toNat_ofNat]; omega)
    (by decide)
  rw [bottomMap_covers, BitVec.lt_def, BitVec.toNat_add, toNat_shiftRight_page] at hi
  simp only [BitVec.toNat_ofNat] at hi
  omega

/-- From the last page on there is only that page, and the check has found it covered. -/
theorem mappedToTop_of_lastPage {vmm : Vmm} {addr size : Word}
    (hc : vmaCheckUser vmm addr size = true) (ha : 0xFFFFF000 ≤ addr.toNat) :
    vmm.mappedToTop (addr >>> pageWidth) := by
  intro q hpq hq
  obtain ⟨i, h1, -⟩ := (vmaCheckUser_iff vmm addr size).mp hc
  have : q = addr >>> pageWidth := by
    apply BitVec.eq_of_toNat_eq
    rw [BitVec.le_def] at hpq
    rw [toNat_shiftRight_page] at hpq ⊢
    have := addr.isLt
    omega
  exact ⟨i, this ▸ h1⟩

/-- **When `vma_check_user` is sound.**  On every input it accepts, the buffer is mapped exactly
when `addr + size` does not wrap or ends at the top with every page mapped; and an address and a
size are safe in every map exactly when the sum does not wrap, or the buffer is the tail of the
last page. -/
theorem vmaCheckUser_sound_iff (addr size : Word) :
    (∀ vmm, vmaCheckUser vmm addr size = true →
      (vmm.bufferMapped addr size ↔
        addr.toNat + size.toNat < 2 ^ 32 ∨
          (addr.toNat + size.toNat = 2 ^ 32 ∧ vmm.mappedToTop (addr >>> pageWidth)))) ∧
    ((∀ vmm, CheckUserSound vmm addr size) ↔
      addr.toNat + size.toNat < 2 ^ 32 ∨
        (addr.toNat + size.toNat = 2 ^ 32 ∧ 0xFFFFF000 ≤ addr.toNat)) := by
  refine ⟨fun vmm hc => bufferMapped_iff hc, fun hall => ?_, ?_⟩
  · rcases Nat.lt_or_ge (addr.toNat + size.toNat) (2 ^ 32) with hlt | hge
    · exact Or.inl hlt
    · have hacc := vmaCheckUser_bottomMap hge
      rcases (bufferMapped_iff hacc).mp (hall _ hacc) with h | ⟨h, hm⟩
      · exact Or.inl h
      · refine Or.inr ⟨h, ?_⟩
        by_contra hlow
        exact not_mappedToTop_bottomMap (by omega) hm
  · rintro (h | ⟨h, ha⟩) vmm hc
    · exact bufferMapped_of_noWrap hc h
    · exact bufferMapped_of_mappedToTop h (mappedToTop_of_lastPage hc ha)

/-- The map of a process whose only area is its image: 32 pages at `PROCESS_BASE`. -/
def imageMap : Vmm where
  asid := 1
  vma := fun i => if i.val = 0 then ⟨0x1FB00, 0x100, 32, true⟩ else Vma.zero

/-- **The check accepts a buffer that wraps around the address space.**  A process with its image
mapped at `PROCESS_BASE` passes a buffer of `0xFFFFF000` bytes that starts in the second page of
the image: the wrapped end is the first page of the image, one slot holds both, and the buffer
leaves the address space. -/
theorem vmaCheckUser_accepts_wrapped :
    vmaCheckUser imageMap 0x1FB01000 0xFFFFF000 = true ∧
      ¬ CheckUserSound imageMap 0x1FB01000 0xFFFFF000 := by
  have hacc : vmaCheckUser imageMap 0x1FB01000 0xFFFFF000 = true := by
    rw [vmaCheckUser_iff]
    exact ⟨⟨0, by decide⟩, by decide, by decide⟩
  refine ⟨hacc, fun h => ?_⟩
  have := (h hacc).1
  revert this
  decide

/-- The two parts at a buffer of one page inside the image. -/
theorem vmaCheckUser_sound_image :
    imageMap.bufferMapped 0x1FB00000 0x1000 ∧
      ∀ vmm, CheckUserSound vmm 0x1FB00000 0x1000 := by
  have hacc : vmaCheckUser imageMap 0x1FB00000 0x1000 = true := by
    rw [vmaCheckUser_iff]
    exact ⟨⟨0, by decide⟩, by decide, by decide⟩
  exact ⟨((vmaCheckUser_sound_iff _ _).1 _ hacc).mpr (Or.inl (by decide)),
    (vmaCheckUser_sound_iff _ _).2.mpr (Or.inl (by decide))⟩

/-! ### Completeness of the user buffer check -/

/-- Every byte of the buffer is in the area of slot `i`. -/
def Vmm.bufferInside (vmm : Vmm) (i : Fin vmas) (addr size : Word) : Prop :=
  ∀ k : Word, k.toNat < size.toNat → (vmm.vma i).covers ((addr + k) >>> pageWidth) = true

/-- What a user of `vma_check_user` expects of a buffer inside one area. -/
def CheckUserComplete (vmm : Vmm) (addr size : Word) : Prop :=
  (∃ i, vmm.bufferInside i addr size) → vmaCheckUser vmm addr size = true

/-- The first address behind an area. -/
def Vma.endAddr (a : Vma) : ℕ := (a.vpnBase + a.count).toNat * 4096

/-- The byte behind a buffer that ends below the top is in every area that holds the buffer and does not
end with it. -/
theorem covers_behind {vmm : Vmm} {addr size : Word} {i : Fin vmas}
    (hi : vmm.bufferInside i addr size) (hsize : 1 ≤ size.toNat)
    (htop : addr.toNat + size.toNat < 2 ^ 32)
    (hend : (vmm.vma i).endAddr ≠ addr.toNat + size.toNat) :
    (vmm.vma i).covers ((addr + size) >>> pageWidth) = true := by
  have hlast : (size - 1).toNat = size.toNat - 1 := by bv_omega
  have hcov := hi (size - 1) (by omega)
  have hlt : (addr + (size - 1)).toNat = addr.toNat + size.toNat - 1 := by
    rw [BitVec.toNat_add, hlast]
    omega
  simp only [Vma.covers, Bool.and_eq_true, decide_eq_true_eq, BitVec.le_def, gt_iff_lt,
    BitVec.lt_def, toNat_shiftRight_page, hlt, page_add_toNat htop, Vma.endAddr] at hcov hend ⊢
  refine ⟨⟨hcov.1.1, ?_⟩, ?_⟩ <;> omega

/-- An area that holds the first page and the page behind the end holds the buffer. -/
theorem bufferInside_of_covers {vmm : Vmm} {addr size : Word} {i : Fin vmas}
    (htop : addr.toNat + size.toNat < 2 ^ 32)
    (hfirst : (vmm.vma i).covers (addr >>> pageWidth) = true)
    (hbehind : (vmm.vma i).covers ((addr + size) >>> pageWidth) = true) :
    vmm.bufferInside i addr size ∧ (vmm.vma i).endAddr ≠ addr.toNat + size.toNat := by
  constructor
  · intro k hk
    refine Vma.covers_between hfirst hbehind ?_ ?_
    · rw [BitVec.le_def, page_add_toNat (by omega), toNat_shiftRight_page]
      omega
    · rw [BitVec.le_def, page_add_toNat (by omega), page_add_toNat htop]
      omega
  · simp only [Vma.covers, Bool.and_eq_true, decide_eq_true_eq, gt_iff_lt, BitVec.lt_def,
      page_add_toNat htop] at hbehind
    simp only [Vma.endAddr]
    omega

/-- The page behind a buffer that ends at the top is the page 0. -/
theorem covers_zero_iff (a : Vma) {vpn : Word} (h : a.covers vpn = true) :
    a.covers 0 = true ↔ a.vpnBase = 0 := by
  simp only [Vma.covers, Bool.and_eq_true, decide_eq_true_eq] at h ⊢
  constructor
  · rintro ⟨⟨-, hle⟩, -⟩
    bv_omega
  · intro hbase
    refine ⟨⟨h.1.1, ?_⟩, ?_⟩ <;> bv_omega

/-- **When `vma_check_user` accepts the buffers inside one area.**  Below the top of the address space,
when one of the areas that hold the buffer does not end with it; at the top, when an area that starts
at the page 0 reaches the first page. -/
theorem vmaCheckUser_complete_iff {vmm : Vmm} {addr size : Word} (hsize : 1 ≤ size.toNat)
    (htop : addr.toNat + size.toNat ≤ 2 ^ 32) :
    CheckUserComplete vmm addr size ↔
      ((∃ i, vmm.bufferInside i addr size) →
        (addr.toNat + size.toNat < 2 ^ 32 ∧ ∃ i, vmm.bufferInside i addr size ∧
          (vmm.vma i).endAddr ≠ addr.toNat + size.toNat) ∨
        (addr.toNat + size.toNat = 2 ^ 32 ∧ ∃ i, (vmm.vma i).vpnBase = 0 ∧
          (vmm.vma i).covers (addr >>> pageWidth) = true)) := by
  refine imp_congr_right fun _ => ?_
  rw [vmaCheckUser_iff]
  rcases Nat.lt_or_eq_of_le htop with hlt | heq
  · simp only [hlt, hlt.ne, true_and, false_and, or_false]
    constructor
    · rintro ⟨i, hfirst, hbehind⟩
      exact ⟨i, bufferInside_of_covers hlt hfirst hbehind⟩
    · rintro ⟨i, hi, hend⟩
      refine ⟨i, ?_, covers_behind hi hsize hlt hend⟩
      simpa using hi 0 hsize
  · have hzero : addr + size = 0 := by bv_omega
    simp only [heq, lt_irrefl, true_and, false_and, false_or]
    constructor
    · rintro ⟨i, hfirst, hbehind⟩
      rw [hzero] at hbehind
      exact ⟨i, (covers_zero_iff _ hfirst).mp hbehind, hfirst⟩
    · rintro ⟨i, hbase, hfirst⟩
      refine ⟨i, hfirst, ?_⟩
      rw [hzero]
      exact (covers_zero_iff _ hfirst).mpr hbase

/-- **A buffer that ends with the last byte of its area is refused**: the last page of the image. -/
theorem vmaCheckUser_refuses_lastPage :
    (∃ i, imageMap.bufferInside i 0x1FB1F000 0x1000) ∧
      vmaCheckUser imageMap 0x1FB1F000 0x1000 = false := by
  constructor
  · refine ⟨⟨0, by decide⟩, fun k hk => ?_⟩
    have hpage : (0x1FB1F000 + k) >>> pageWidth = 0x1FB1F := by
      apply BitVec.eq_of_toNat_eq
      simp only [BitVec.reduceToNat] at hk
      rw [page_add_toNat (by simp only [BitVec.reduceToNat]; omega)]
      simp only [BitVec.reduceToNat]
      omega
    rw [hpage]
    decide
  · rw [Bool.eq_false_iff, ne_eq, vmaCheckUser_iff]
    rintro ⟨i, -, hend⟩
    by_cases hi : i.val = 0
    · simp only [imageMap, hi, if_true] at hend
      exact absurd hend (by decide)
    · simp only [imageMap, hi, if_false] at hend
      exact absurd hend (by decide)

/-- The page before it is accepted. -/
theorem vmaCheckUser_complete_image : CheckUserComplete imageMap 0x1FB1E000 0x1000 := by
  refine (vmaCheckUser_complete_iff (by decide) (by decide)).mpr fun ⟨i, hi⟩ => ?_
  refine Or.inl ⟨by decide, i, hi, ?_⟩
  have hcov := hi 0 (by decide)
  by_cases hz : i.val = 0
  · simp [imageMap, hz, Vma.endAddr]
  · simp only [imageMap, hz, if_false] at hcov
    exact absurd hcov (by decide)

end Kalisto
