import Kalisto.Mm.HeapLayout

/-!
# The steps of the heap code

One lemma for each primitive and each helper of `mm/malloc.c`: what it returns and how it changes the
state, when addresses are aligned and no sum leaves the 32-bit range.  The helpers that write memory
are described by functions on memories (`initBlock`, `takeMem`), with one lemma for what they write
and one for what they leave alone.
-/

namespace Kalisto

namespace HeapM

/-! ### Primitives -/

@[simp] theorem bind_apply {α β : Type} (x : HeapM α) (f : α → HeapM β) (s : HeapState) :
    (x >>= f) s = (x s >>= fun p => f p.1 p.2) := (rfl)

@[simp] theorem pure_apply {α : Type} (a : α) (s : HeapState) :
    (pure a : HeapM α) s = .ok (a, s) := (rfl)

@[simp] theorem modify_apply (f : HeapState → HeapState) (s : HeapState) :
    (modify f : HeapM Unit) s = .ok ((), f s) := (rfl)

@[simp] theorem get_apply (s : HeapState) : (get : HeapM HeapState) s = .ok (s, s) := (rfl)

@[simp] theorem assert_true (s : HeapState) : assert true s = .ok ((), s) := (rfl)

theorem add_apply {a b : ℕ} (h : a + b < 2 ^ 32) (s : HeapState) : add a b s = .ok (a + b, s) := by
  have hw : decide (2 ^ 32 ≤ a + b) = false := by
    rw [decide_eq_false_iff_not]
    omega
  simp only [add, hw, Bool.or_false, Nat.mod_eq_of_lt h]

theorem sub_apply {a b : ℕ} (h : b ≤ a) (ha : a < 2 ^ 32) (s : HeapState) :
    sub a b s = .ok (a - b, s) := by
  have hw : decide (a < b) = false := by
    rw [decide_eq_false_iff_not]
    omega
  have hv : (a + 2 ^ 32 - b) % 2 ^ 32 = a - b := by omega
  simp only [sub, hw, Bool.or_false, hv]

theorem load_apply {p off : ℕ} (h : p + off < 2 ^ 32) (ha : (p + off) % 4 = 0) (s : HeapState) :
    load p off s = .ok (s.mem.word (p + off), s) := by
  simp [load, add_apply h, ha]

theorem store_apply {p off v : ℕ} (h : p + off < 2 ^ 32) (ha : (p + off) % 4 = 0)
    (s : HeapState) :
    store p off v s = .ok ((), { s with mem := s.mem.setWord (p + off) v }) := by
  simp [store, add_apply h, ha]

theorem loadBool_apply {p off : ℕ} (h : p + off < 2 ^ 32) (s : HeapState) :
    loadBool p off s = .ok (s.mem (p + off) != 0, s) := by
  simp [loadBool, add_apply h]

theorem storeBool_apply {p off : ℕ} {b : Bool} (h : p + off < 2 ^ 32) (s : HeapState) :
    storeBool p off b s =
      .ok ((), { s with mem := s.mem.setByte (p + off) (if b then 1 else 0) }) := by
  simp [storeBool, add_apply h]

/-- Masking away low bits of a 32-bit number. -/
theorem and_mask {x k : ℕ} (hx : x < 2 ^ 32) (hk : k ≤ 32) :
    x &&& (2 ^ 32 - 2 ^ k) = x / 2 ^ k * 2 ^ k := by
  have h := congrArg BitVec.toNat (and_allOnes_shiftLeft k (BitVec.ofNat 32 x))
  have hmask : (BitVec.allOnes 32 <<< k).toNat = 2 ^ 32 - 2 ^ k := by
    interval_cases k <;> rfl
  rw [BitVec.toNat_and, hmask, BitVec.toNat_shiftLeft, BitVec.toNat_ushiftRight,
    BitVec.toNat_ofNat, Nat.mod_eq_of_lt hx, Nat.shiftLeft_eq, Nat.shiftRight_eq_div_pow] at h
  rw [h, Nat.mod_eq_of_lt]
  exact lt_of_le_of_lt (Nat.div_mul_le_self x _) hx

theorem alignUp_apply {x k : ℕ} (hk : k ≤ 32) (hx : x + (2 ^ k - 1) < 2 ^ 32) (s : HeapState) :
    alignUp x (2 ^ k) s = .ok ((x + (2 ^ k - 1)) / 2 ^ k * 2 ^ k, s) := by
  simp only [alignUp, bind_apply, add_apply hx, Outcome.ok_bind, pure_apply, and_mask hx hk]

/-! ### Sizes -/

theorem realSizeOf_apply {size : ℕ} (h : size ≤ heapBlockSizeMax) (s : HeapState) :
    realSizeOf size s = .ok (realSize size, s) := by
  simp only [heapBlockSizeMax] at h
  have ha : alignUp size alignment s = .ok ((size + 3) / 4 * 4, s) :=
    alignUp_apply (k := 2) (by omega) (by omega) s
  have h1 : (size + 3) / 4 * 4 + 16 + 8 < 2 ^ 32 := by omega
  simp only [realSizeOf, bind_apply, ha, Outcome.ok_bind, sizeofHead, sizeofFoot,
    add_apply (show (size + 3) / 4 * 4 + 16 < 2 ^ 32 by omega), add_apply h1, realSize]

theorem realSize_ok {size : ℕ} (h : size ≤ heapBlockSizeMax) :
    size + 24 ≤ realSize size ∧ realSize size ≤ 0x10000018 ∧ realSize size % 4 = 0 := by
  simp only [heapBlockSizeMax] at h
  simp only [realSize]
  omega

theorem splitLimitOf_apply {real : ℕ} (h : real + 24 < 2 ^ 32) (s : HeapState) :
    splitLimitOf real s = .ok (real + 24, s) := by
  simp only [splitLimitOf, bind_apply, sizeofHead, sizeofFoot,
    add_apply (show real + 16 < 2 ^ 32 by omega), Outcome.ok_bind,
    add_apply (show real + 16 + 8 < 2 ^ 32 by omega), Nat.add_assoc]

theorem heapSizeOf_apply {real : ℕ} (h : real ≤ 0x10000018) (s : HeapState) :
    heapSizeOf real s = .ok ((framesFor real * 4096, framesFor real), s) := by
  have ha : alignUp (real + 20) frameSize s = .ok ((real + 20 + 4095) / 4096 * 4096, s) :=
    alignUp_apply (k := 12) (by omega) (by omega) s
  have hsh : ((real + 20 + 4095) / 4096 * 4096) >>> frameWidth = (real + 20 + 4095) / 4096 := by
    simp [frameWidth, Nat.shiftRight_eq_div_pow]
  simp only [heapSizeOf, bind_apply, sizeofHeap, add_apply (show real + 20 < 2 ^ 32 by omega),
    Outcome.ok_bind, ha, hsh, heapFrames, framesFor, pure_apply]
  split
  · rw [max_eq_left (by omega)]
    rfl
  · rw [max_eq_right (by omega)]

/-! ### Blocks -/

/-- **`block_check` passes** on a block of the layout and changes nothing. -/
theorem blockCheck_apply {s : HeapState} {heap a : ℕ} {b : Block} (hb : BlockAt s.mem heap a b)
    (hok : b.Ok) (ha : a % 4 = 0) (hh : heap % 4 = 0) (hend : a + b.size < 2 ^ 32)
    (hheap : heap + 20 < 2 ^ 32) (h1 : s.mem.word (heap + 8) ≤ a)
    (h2 : a < s.mem.word (heap + 12)) : blockCheck a s = .ok ((), s) := by
  obtain ⟨hs, hs4⟩ := hok
  have hsize : load a 0 s = .ok (b.size, s) := by
    rw [load_apply (by omega) (by omega), Nat.add_zero, hb.size]
  have hheap' : load a 8 s = .ok (heap, s) := by
    rw [load_apply (by omega) (by omega), hb.heap]
  have hmagic : load a 12 s = .ok (headMagic, s) := by
    rw [load_apply (by omega) (by omega), hb.magic]
  have hfm : load (a + b.size - 8) 0 s = .ok (footMagic, s) := by
    rw [load_apply (by omega) (by omega), Nat.add_zero, hb.footMagic]
  have hfs : load (a + b.size - 8) 4 s = .ok (b.size, s) := by
    rw [load_apply (by omega) (by omega), show a + b.size - 8 + 4 = a + b.size - 4 by omega,
      hb.footSize]
  have hstart : load heap 8 s = .ok (s.mem.word (heap + 8), s) := load_apply (by omega) (by omega) s
  have hstop : load heap 12 s = .ok (s.mem.word (heap + 12), s) :=
    load_apply (by omega) (by omega) s
  simp only [blockCheck, bind_apply, hheap', Outcome.ok_bind, hstart, hstop, hmagic, hsize,
    decide_eq_true h1, decide_eq_true h2, sizeofFoot, add_apply hend,
    sub_apply (show 8 ≤ a + b.size by omega) hend, hfm, hfs, beq_self_eq_true, assert_true]

/-- The memory after `block_init`. -/
def initBlock (m : Memory) (a size : ℕ) (free : Bool) (heap : ℕ) : Memory :=
  (((((m.setWord a size).setByte (a + 4) (if free then 1 else 0)).setWord (a + 8) heap).setWord
    (a + 12) headMagic).setWord (a + size - 8) footMagic).setWord (a + size - 4) size

theorem blockInit_apply {s : HeapState} {a size heap : ℕ} {free : Bool} (ha : a % 4 = 0)
    (hs : 24 ≤ size) (hs4 : size % 4 = 0) (hend : a + size < 2 ^ 32) :
    blockInit a size free heap s =
      .ok ((), { s with mem := initBlock s.mem a size free heap }) := by
  simp only [blockInit, bind_apply, add_apply hend, Outcome.ok_bind, sizeofFoot,
    sub_apply (show 8 ≤ a + size by omega) hend,
    store_apply (show a + 0 < 2 ^ 32 by omega) (show (a + 0) % 4 = 0 by omega),
    storeBool_apply (show a + 4 < 2 ^ 32 by omega),
    store_apply (show a + 8 < 2 ^ 32 by omega) (show (a + 8) % 4 = 0 by omega),
    store_apply (show a + 12 < 2 ^ 32 by omega) (show (a + 12) % 4 = 0 by omega),
    store_apply (show a + size - 8 + 0 < 2 ^ 32 by omega) (show (a + size - 8 + 0) % 4 = 0 by omega),
    store_apply (show a + size - 8 + 4 < 2 ^ 32 by omega) (show (a + size - 8 + 4) % 4 = 0 by omega),
    show a + size - 8 + 4 = a + size - 4 by omega, Nat.add_zero, initBlock]

/-- **`block_init` writes the metadata of the block.** -/
theorem initBlock_at (m : Memory) {a size heap : ℕ} {free : Bool} (ha : a % 4 = 0)
    (hs : 24 ≤ size) (hs4 : size % 4 = 0) (hsize : size < 2 ^ 32) (hheap : heap < 2 ^ 32) :
    BlockAt (initBlock m a size free heap) heap a ⟨size, free⟩ := by
  have hm : headMagic % 2 ^ 32 = headMagic := by norm_num [headMagic]
  have hf : footMagic % 2 ^ 32 = footMagic := by norm_num [footMagic]
  constructor
  · simp only [initBlock]
    rw [Memory.word_setWord_of_ne (by omega) (by omega) (by omega),
      Memory.word_setWord_of_ne (by omega) (by omega) (by omega),
      Memory.word_setWord_of_ne (by omega) (by omega) (by omega),
      Memory.word_setWord_of_ne (by omega) (by omega) (by omega),
      Memory.word_setByte_of_ne (by omega) (by omega) (by omega), Memory.word_setWord_self,
      Nat.mod_eq_of_lt hsize]
  · simp only [initBlock]
    rw [Memory.setWord_of_outside (by omega), Memory.setWord_of_outside (by omega),
      Memory.setWord_of_outside (by omega), Memory.setWord_of_outside (by omega),
      Memory.setByte_self]
  · simp only [initBlock]
    rw [Memory.word_setWord_of_ne (by omega) (by omega) (by omega),
      Memory.word_setWord_of_ne (by omega) (by omega) (by omega),
      Memory.word_setWord_of_ne (by omega) (by omega) (by omega), Memory.word_setWord_self,
      Nat.mod_eq_of_lt hheap]
  · simp only [initBlock]
    rw [Memory.word_setWord_of_ne (by omega) (by omega) (by omega),
      Memory.word_setWord_of_ne (by omega) (by omega) (by omega), Memory.word_setWord_self, hm]
  · simp only [initBlock]
    rw [Memory.word_setWord_of_ne (by omega) (by omega) (by omega), Memory.word_setWord_self, hf]
  · simp only [initBlock]
    rw [Memory.word_setWord_self, Nat.mod_eq_of_lt hsize]

/-- `block_init` writes nothing else. -/
theorem initBlock_outside (m : Memory) {a size heap x : ℕ} {free : Bool} (hs : 24 ≤ size)
    (hx : ¬ MetaByte a size x) : initBlock m a size free heap x = m x := by
  simp only [MetaByte] at hx
  simp only [initBlock]
  rw [Memory.setWord_of_outside (by omega), Memory.setWord_of_outside (by omega),
    Memory.setWord_of_outside (by omega), Memory.setWord_of_outside (by omega),
    Memory.setByte_of_ne (by omega), Memory.setWord_of_outside (by omega)]

end HeapM

/-- Changing the free flag of a block. -/
theorem BlockAt.setFree {m : Memory} {heap a : ℕ} {b : Block} (h : BlockAt m heap a b)
    (hb : b.Ok) (ha : a % 4 = 0) (f : Bool) :
    BlockAt (m.setByte (a + 4) (if f then 1 else 0)) heap a ⟨b.size, f⟩ := by
  obtain ⟨hs, hs4⟩ := hb
  constructor
  · rw [Memory.word_setByte_of_ne (by omega) (by omega) (by omega), h.size]
  · rw [Memory.setByte_self]
  · rw [Memory.word_setByte_of_ne (by omega) (by omega) (by omega), h.heap]
  · rw [Memory.word_setByte_of_ne (by omega) (by omega) (by omega), h.magic]
  · show Memory.word _ (a + b.size - 8) = Kalisto.footMagic
    rw [Memory.word_setByte_of_ne (by omega) (by omega) (by omega), h.footMagic]
  · show Memory.word _ (a + b.size - 4) = b.size
    rw [Memory.word_setByte_of_ne (by omega) (by omega) (by omega), h.footSize]

/-- The free flag as the code reads it. -/
theorem BlockAt.free_ne {m : Memory} {heap a : ℕ} {b : Block} (h : BlockAt m heap a b) :
    (m (a + 4) != 0) = b.free := by
  rw [h.free]
  cases b.free <;> rfl

end Kalisto
