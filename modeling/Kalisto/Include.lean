import Mathlib

/-!
# Common definitions of the kernel

The platform types, the error codes and the macros that `include/c.h`, `include/shared.h` and
`mm/falloc.h` give to every other file.  Machine words are `BitVec 32`, so that sums and shifts
wrap exactly where the C code's `uint32_t`, `size_t` and `uintptr_t` wrap.

The two mask lemmas at the end say what the `ALIGN_DOWN` macro and the page offset mask compute,
in terms of division by the page size; everything later uses the macros through them.
-/

namespace Kalisto

/-- `uint32_t`, `size_t`, `uintptr_t` and `unative_t` of the 32-bit MIPS target. -/
abbrev Word := BitVec 32

/-- The error codes of `include/c.h`. -/
inductive Errno where
  | eok
  | eagain
  | enomem
  | einval
  | enosys
  | etimedout
  | ekilled
  deriving DecidableEq, Repr

/-- What stops the kernel instead of returning: a failed `assert`, an explicit `panic`, a
dereferenced `NULL`, or a word access at an address that is not a multiple of four. -/
inductive Fault where
  | assertion
  | panic
  | nullDeref
  | unaligned
  deriving DecidableEq, Repr

/-! ### Alignment -/

/-- `ALIGN_DOWN (size, align)`. -/
def alignDown (size align : Word) : Word := size &&& ~~~(align - 1)

/-! ### Frames and pages -/

/-- `FRAME_WIDTH`, which is also `PAGE_WIDTH`. -/
def frameWidth : ℕ := 12

/-- `PAGE_WIDTH`, defined as `FRAME_WIDTH`. -/
def pageWidth : ℕ := frameWidth

/-- `PAGE_SIZE`, that is `1 << FRAME_WIDTH`. -/
def pageSize : Word := 1#32 <<< pageWidth

/-- `VF_VA_AUTO`: use an optimal virtual address. -/
def vfVaAuto : Word := 1#32 <<< 0

/-- `VF_VA_USER`: use the virtual address supplied by the user. -/
def vfVaUser : Word := 1#32 <<< 1

/-- `VF_AT_KSEG0`. -/
def vfAtKseg0 : Word := 1#32 <<< 3

/-- `VF_AT_KSEG1`. -/
def vfAtKseg1 : Word := 1#32 <<< 4

/-! ### What the masks compute -/

/-- Masking away the low `k` bits is a shift there and back. -/
theorem and_allOnes_shiftLeft (k : ℕ) (x : Word) :
    x &&& (BitVec.allOnes 32 <<< k) = (x >>> k) <<< k := by
  apply BitVec.eq_of_getLsbD_eq
  intro i hi
  simp only [BitVec.getLsbD_and, BitVec.getLsbD_shiftLeft, BitVec.getLsbD_ushiftRight,
    BitVec.getLsbD_allOnes]
  by_cases h : i < k
  · simp [h]
  · simp [h, hi, show k + (i - k) = i by omega]
    omega

theorem toNat_shiftRight_page (x : Word) : (x >>> pageWidth).toNat = x.toNat / 4096 := by
  simp [pageWidth, frameWidth, BitVec.toNat_ushiftRight, Nat.shiftRight_eq_div_pow]

theorem toNat_shiftLeft_page (x : Word) :
    (x <<< pageWidth).toNat = x.toNat * 4096 % 2 ^ 32 := by
  simp [pageWidth, frameWidth, BitVec.toNat_shiftLeft, Nat.shiftLeft_eq]

theorem alignDown_page_toNat (x : Word) :
    (alignDown x pageSize).toNat = x.toNat / 4096 * 4096 := by
  have hmask : ~~~(pageSize - 1) = BitVec.allOnes 32 <<< 12 := by decide
  rw [alignDown, hmask, and_allOnes_shiftLeft]
  have hx := x.isLt
  have h1 : (x >>> 12).toNat = x.toNat / 4096 := toNat_shiftRight_page x
  have h2 : ((x >>> 12) <<< 12).toNat = (x >>> 12).toNat * 4096 % 2 ^ 32 :=
    toNat_shiftLeft_page (x >>> 12)
  omega

/-- **What `ALIGN_DOWN (x, PAGE_SIZE) == x` tests.** -/
theorem alignDown_page_eq_self (x : Word) :
    alignDown x pageSize = x ↔ x.toNat % 4096 = 0 := by
  constructor
  · intro h
    have := congrArg BitVec.toNat h
    rw [alignDown_page_toNat] at this
    omega
  · intro h
    apply BitVec.eq_of_toNat_eq
    rw [alignDown_page_toNat]
    omega

/-- `virt & (PAGE_SIZE - 1)` is the offset in the page. -/
theorem and_pageMask_toNat (x : Word) : (x &&& (pageSize - 1)).toNat = x.toNat % 4096 := by
  have hmask : (pageSize - 1).toNat = 2 ^ 12 - 1 := by decide
  rw [BitVec.toNat_and, hmask, Nat.and_two_pow_sub_one_eq_mod]

/-- `MAX_CPU`. -/
def maxCpu : ℕ := 32

end Kalisto
