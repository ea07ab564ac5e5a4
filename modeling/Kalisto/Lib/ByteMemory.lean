import Mathlib

/-!
# Byte-addressed memory with 32-bit words

`Memory` maps addresses to bytes.  `word m a` is the little-endian 32-bit word at `a` and `setWord`,
`setByte` store a word and a byte.  Three kinds of facts are all that reasoning about memory layouts
needs:

* reading back what was stored (`word_setWord_self`, `setByte_self`);
* reading somewhere else (`word_setWord_of_ne`, for aligned words; `setWord_of_outside`, for bytes);
* a word depends on its four bytes only (`word_congr`).
-/

/-- A byte. -/
abbrev Byte := Fin 256

/-- The numerals of bytes rest on this. -/
instance Byte.neZero : NeZero 256 := ⟨by decide⟩

/-- A memory of bytes. -/
abbrev Memory := ℕ → Byte

namespace Memory

/-- Byte `i` of a number. -/
def byteOf (v i : ℕ) : Byte := Fin.ofNat 256 (v / 256 ^ i)

/-- The 32-bit word at address `a`.  It is irreducible so that a word is never unfolded to be
compared with a number. -/
@[irreducible] def word (m : Memory) (a : ℕ) : ℕ :=
  (m a).val + 256 * (m (a + 1)).val + 65536 * (m (a + 2)).val + 16777216 * (m (a + 3)).val

/-- Store a byte. -/
def setByte (m : Memory) (a : ℕ) (b : Byte) : Memory := Function.update m a b

/-- Store a 32-bit word. -/
def setWord (m : Memory) (a v : ℕ) : Memory := fun x =>
  if a ≤ x ∧ x < a + 4 then byteOf v (x - a) else m x

/-- A word depends on its four bytes only. -/
theorem word_congr {m m' : Memory} {a : ℕ} (h : ∀ x, a ≤ x → x < a + 4 → m' x = m x) :
    word m' a = word m a := by
  simp only [word, h a le_rfl (by omega), h (a + 1) (by omega) (by omega),
    h (a + 2) (by omega) (by omega), h (a + 3) (by omega) (by omega)]

theorem setWord_of_outside {m : Memory} {a v x : ℕ} (h : x < a ∨ a + 4 ≤ x) :
    setWord m a v x = m x := by
  rw [setWord, if_neg (by omega)]

theorem setByte_self (m : Memory) (a : ℕ) (b : Byte) : setByte m a b a = b := by
  simp [setByte]

theorem setByte_of_ne {m : Memory} {a x : ℕ} {b : Byte} (h : x ≠ a) : setByte m a b x = m x := by
  simp [setByte, h]

/-- A stored word is read back, as a 32-bit number. -/
theorem word_setWord_self (m : Memory) (a v : ℕ) : word (setWord m a v) a = v % 2 ^ 32 := by
  have h0 : setWord m a v a = byteOf v 0 := by simp [setWord]
  have h1 : setWord m a v (a + 1) = byteOf v 1 := by simp [setWord]
  have h2 : setWord m a v (a + 2) = byteOf v 2 := by simp [setWord]
  have h3 : setWord m a v (a + 3) = byteOf v 3 := by simp [setWord]
  simp only [word, h0, h1, h2, h3, byteOf, Fin.val_ofNat]
  omega

/-- Aligned words at different addresses do not interfere. -/
theorem word_setWord_of_ne {m : Memory} {a b v : ℕ} (ha : a % 4 = 0) (hb : b % 4 = 0)
    (h : b ≠ a) : word (setWord m a v) b = word m b :=
  word_congr fun x h1 h2 => setWord_of_outside (by omega)

theorem word_setByte_of_ne {m : Memory} {a b : ℕ} {v : Byte} (ha : a % 4 = 0) (hb : b % 4 = 0)
    (h : b ≠ a) : word (setByte m a v) b = word m b :=
  word_congr fun x h1 h2 => setByte_of_ne (by omega)

end Memory
