import Kalisto.Include
import Kalisto.Lib.Outcome
import Kalisto.Lib.Numeral

/-!
# The function `number` of `lib/print.c`

`number` follows the source statement by statement.  The buffer lies in a `Memory`, and a `Cursor` is the
memory with the pointer `buf`; `unsigned long` and `int` flags are words of 32 bits, the counters of type
`int` are integers.  A write beyond `tmp [32]` is the fault `overrun`.

* `numberText` — the text, put together from its parts: sign, prefix, zeros, digits and the padding;
* `number_eq` — the five loops write that text and a NUL, as far as the buffer goes;
* `number_spec` — a text that fits is terminated, and nothing else is written;
* `length_numberText`, `strtol_numberText` — the width of the text, and that it is read back as the number.
-/

namespace Kalisto

/-- What can go wrong while printing. -/
inductive PrintFault where
  | panic
  | overrun
  deriving DecidableEq, Repr

/-! ### The code -/

/-- `NF_ZEROPAD`. -/
def nfZeropad : Word := 1

/-- `NF_SIGNED`. -/
def nfSigned : Word := 2

/-- `NF_PLUS`. -/
def nfPlus : Word := 4

/-- `NF_SPACE`. -/
def nfSpace : Word := 8

/-- `NF_LEFT`. -/
def nfLeft : Word := 16

/-- `NF_SPECIAL`. -/
def nfSpecial : Word := 32

/-- `NF_UPCASE`. -/
def nfUpcase : Word := 64

/-- `format & flag`, as a condition. -/
def hasFlag (format flag : Word) : Bool := decide (format &&& flag ≠ 0)

/-- `digits_locase`. -/
def digitsLocase : List Byte := Byte.ofString "0123456789abcdef"

/-- `digits_upcase`. -/
def digitsUpcase : List Byte := Byte.ofString "0123456789ABCDEF"

/-- The memory and the pointer `buf`. -/
structure Cursor where
  mem : Memory
  buf : ℕ

/-- `if (buf <= end) *buf = c; ++buf`. -/
def Cursor.put (p : Cursor) (last : ℕ) (c : Byte) : Cursor :=
  { mem := if p.buf ≤ last then p.mem.setByte p.buf c else p.mem
    buf := p.buf + 1 }

/-- `if (buf <= end) *buf = 0`. -/
def Cursor.terminate (p : Cursor) (last : ℕ) : Cursor :=
  { p with mem := if p.buf ≤ last then p.mem.setByte p.buf 0 else p.mem }

/-- The `do`-`while` loop that stores the digits in `tmp`, with room for so many: the content of `tmp`. -/
def fillTmp (digits : List Byte) (base : Word) : ℕ → Word → Outcome PrintFault (List Byte)
  | 0, _ => .fault .overrun
  | room + 1, num => do
    let c := digits.getD (num % base).toNat 0
    let num := num / base
    if num ≠ 0 then do
      let tmp ← fillTmp digits base room num
      return c :: tmp
    else return [c]

/-- `while (size-- > 0)` with a character: `size` after the loop, and the cursor. -/
def padWhile (last : ℕ) (c : Byte) (size : ℤ) (p : Cursor) : ℤ × Cursor :=
  if 0 < size then padWhile last c (size - 1) (p.put last c) else (size - 1, p)
termination_by size.toNat

/-- `while (i < precision--)` with a zero. -/
def zerosWhile (last : ℕ) (i precision : ℤ) (p : Cursor) : Cursor :=
  if i < precision then zerosWhile last i (precision - 1) (p.put last (Byte.ofChar '0')) else p
termination_by (precision - i).toNat

/-- `while (i-- > 0)` with `tmp [i]`. -/
def digitsWhile (last : ℕ) (tmp : List Byte) : ℕ → Cursor → Cursor
  | 0, p => p
  | i + 1, p => digitsWhile last tmp i (p.put last (tmp.getD i 0))

/-- The sign character, the number and the size after it. -/
def numberSign (format num : Word) (size : ℤ) : Byte × Word × ℤ :=
  if hasFlag format nfSigned then
    if num.toInt < 0 then (Byte.ofChar '-', -num, size - 1)
    else if hasFlag format nfPlus then (Byte.ofChar '+', num, size - 1)
    else if hasFlag format nfSpace then (Byte.ofChar ' ', num, size - 1)
    else (0, num, size)
  else (0, num, size)

/-- The prefix for special bases. -/
def putPrefix (p : Cursor) (last : ℕ) (base : ℤ) (format : Word) : Cursor :=
  if hasFlag format nfSpecial then
    if base = 8 then p.put last (Byte.ofChar '0')
    else if base = 16 then (p.put last (Byte.ofChar '0')).put last (Byte.ofChar 'x')
    else p
  else p

/-- `number`. -/
def number (mem : Memory) (buf last : ℕ) (num : Word) (base size precision : ℤ) (format : Word) :
    Outcome PrintFault Cursor :=
  if base < 2 ∨ 16 < base then .fault .panic
  else do
    let digits := if hasFlag format nfUpcase then digitsUpcase else digitsLocase
    -- a left justified number cannot be zero-padded
    let format := if hasFlag format nfLeft then format &&& ~~~nfZeropad else format
    let pad := Byte.ofChar (if hasFlag format nfZeropad then '0' else ' ')
    let (sign, num, size) := numberSign format num size
    let size :=
      if hasFlag format nfSpecial then if base = 16 then size - 2 else if base = 8 then size - 1 else size
      else size
    let tmp ← fillTmp digits (BitVec.ofInt 32 base) 32 num
    let i : ℤ := tmp.length
    let precision := if i > precision then i else precision
    let size := size - precision
    let p : Cursor := ⟨mem, buf⟩
    let (size, p) :=
      if ¬ hasFlag format (nfZeropad + nfLeft) then padWhile last (Byte.ofChar ' ') size p else (size, p)
    let p := if sign ≠ 0 then p.put last sign else p
    let p := putPrefix p last base format
    let (size, p) := if ¬ hasFlag format nfLeft then padWhile last pad size p else (size, p)
    let p := zerosWhile last i precision p
    let p := digitsWhile last tmp tmp.length p
    let (_, p) := padWhile last (Byte.ofChar ' ') size p
    return p.terminate last

/-! ### The text -/

/-- The sign of the text. -/
def signText (format num : Word) : List Byte :=
  if hasFlag format nfSigned then
    if num.toInt < 0 then [Byte.ofChar '-']
    else if hasFlag format nfPlus then [Byte.ofChar '+']
    else if hasFlag format nfSpace then [Byte.ofChar ' ']
    else []
  else []

/-- The number without its sign. -/
def magnitude (format num : Word) : ℕ :=
  if hasFlag format nfSigned then num.toInt.natAbs else num.toNat

/-- The prefix of the text. -/
def prefixText (base : ℤ) (format : Word) : List Byte :=
  if hasFlag format nfSpecial then
    if base = 8 then [Byte.ofChar '0'] else if base = 16 then Byte.ofString "0x" else []
  else []

/-- A digit of the text. -/
def digitText (format : Word) (d : ℕ) : Byte :=
  (if hasFlag format nfUpcase then digitsUpcase else digitsLocase).getD d 0

/-- The digits of the text, the highest first. -/
def digitsText (num : Word) (base : ℤ) (format : Word) : List Byte :=
  (numeral base.toNat (magnitude format num)).reverse.map (digitText format)

/-- The zeros up to the precision. -/
def zerosText (num : Word) (base precision : ℤ) (format : Word) : List Byte :=
  List.replicate (precision - (digitsText num base format).length).toNat (Byte.ofChar '0')

/-- The text without padding. -/
def unpadded (num : Word) (base precision : ℤ) (format : Word) : List Byte :=
  signText format num ++ (prefixText base format ++
    (zerosText num base precision format ++ digitsText num base format))

/-- The length of the padding. -/
def padding (num : Word) (base size precision : ℤ) (format : Word) : ℕ :=
  (size - (unpadded num base precision format).length).toNat

/-- **The text of a number**: blanks behind it, zeros behind sign and prefix, or blanks before it. -/
def numberText (num : Word) (base size precision : ℤ) (format : Word) : List Byte :=
  if hasFlag format nfLeft then
    unpadded num base precision format ++
      List.replicate (padding num base size precision format) (Byte.ofChar ' ')
  else if hasFlag format nfZeropad then
    signText format num ++ (prefixText base format ++
      (List.replicate (padding num base size precision format) (Byte.ofChar '0') ++
        (zerosText num base precision format ++ digitsText num base format)))
  else
    List.replicate (padding num base size precision format) (Byte.ofChar ' ') ++
      unpadded num base precision format

/-! ### Flags -/

/-- The other flags, after `format &= ~NF_ZEROPAD`. -/
theorem hasFlag_clear {flag : Word} (h : ~~~nfZeropad &&& flag = flag) (c : Bool) (format : Word) :
    hasFlag (if c then format &&& ~~~nfZeropad else format) flag = hasFlag format flag := by
  cases c with
  | true => rw [hasFlag, hasFlag, if_pos rfl, BitVec.and_assoc, h]
  | false => rfl

/-- The other flags of `number`. -/
theorem clear_flags : ~~~nfZeropad &&& nfSigned = nfSigned ∧ ~~~nfZeropad &&& nfPlus = nfPlus ∧
    ~~~nfZeropad &&& nfSpace = nfSpace ∧ ~~~nfZeropad &&& nfLeft = nfLeft ∧
    ~~~nfZeropad &&& nfSpecial = nfSpecial := by decide

theorem hasFlag_clear_zeropad (c : Bool) (format : Word) :
    hasFlag (if c then format &&& ~~~nfZeropad else format) nfZeropad =
      (!c && hasFlag format nfZeropad) := by
  cases c with
  | true =>
    have hmask : ~~~nfZeropad &&& nfZeropad = 0#32 := by decide
    rw [hasFlag, if_pos rfl, BitVec.and_assoc, hmask, BitVec.and_zero]
    rfl
  | false => rfl

/-- `format & (NF_ZEROPAD + NF_LEFT)`. -/
theorem hasFlag_zeropad_left (format : Word) :
    hasFlag format (nfZeropad + nfLeft) = (hasFlag format nfZeropad || hasFlag format nfLeft) := by
  have hmask : nfZeropad + nfLeft = nfZeropad ||| nfLeft := by decide
  have hor : format &&& (nfZeropad ||| nfLeft) = (format &&& nfZeropad) ||| (format &&& nfLeft) := by
    ext i
    simp [Bool.and_or_distrib_left]
  have hzero : ∀ x y : Word, x ||| y = 0 ↔ x = 0 ∧ y = 0 := fun x y => BitVec.or_eq_zero_iff
  rw [hasFlag, hasFlag, hasFlag, hmask, hor]
  simp only [ne_eq, hzero, not_and_or, Bool.decide_or]

/-! ### Writing -/

namespace Cursor

variable {last : ℕ} {p : Cursor}

/-- Characters, one after the other. -/
def putAll (p : Cursor) (last : ℕ) (s : List Byte) : Cursor := s.foldl (fun p c => p.put last c) p

theorem putAll_nil (p : Cursor) (last : ℕ) : p.putAll last [] = p := rfl

theorem putAll_append (p : Cursor) (last : ℕ) (s t : List Byte) :
    p.putAll last (s ++ t) = (p.putAll last s).putAll last t := List.foldl_append ..

theorem putAll_buf (p : Cursor) (last : ℕ) (s : List Byte) : (p.putAll last s).buf = p.buf + s.length := by
  induction s generalizing p with
  | nil => rfl
  | cons c s ih =>
    have hrest := ih (p.put last c)
    rw [List.length_cons, Nat.add_comm s.length, ← Nat.add_assoc]
    exact hrest

/-- **What is not written**: bytes before the pointer, bytes behind the end, and bytes behind the text. -/
theorem putAll_mem (last : ℕ) (s : List Byte) {a : ℕ} (h : a < p.buf ∨ last < a ∨ p.buf + s.length ≤ a) :
    (p.putAll last s).mem a = p.mem a := by
  induction s generalizing p with
  | nil => rfl
  | cons c s ih =>
    simp only [List.length_cons] at h
    have hrest : ((p.put last c).putAll last s).mem a = (p.put last c).mem a := ih (by
      simp only [put]
      omega)
    refine hrest.trans ?_
    simp only [put]
    split
    · exact Memory.setByte_of_ne (by omega)
    · rfl

/-- **A text that fits**, with a NUL behind it. -/
theorem putAll_cstring {s : List Byte} (hs : 0 ∉ s) (hfit : p.buf + s.length ≤ last) :
    ((p.putAll last s).mem.setByte (p.putAll last s).buf 0).CString p.buf s := by
  induction s generalizing p with
  | nil => exact Memory.setByte_self ..
  | cons c s ih =>
    simp only [List.length_cons] at hfit
    simp only [List.mem_cons, not_or] at hs
    have hrest := ih (p := p.put last c) hs.2 (by
      simp only [put]
      omega)
    refine ⟨?_, Ne.symm hs.1, hrest⟩
    have hbuf : p.buf ≠ (p.putAll last (c :: s)).buf := by
      rw [putAll_buf, List.length_cons]
      omega
    rw [Memory.setByte_of_ne hbuf]
    refine (putAll_mem (p := p.put last c) last s (Or.inl (Nat.lt_succ_self _))).trans ?_
    simp only [put, if_pos (show p.buf ≤ last by omega)]
    exact Memory.setByte_self ..

end Cursor

/-! ### The loops -/

/-- **The loops of the padding** write so many characters, and leave no size. -/
theorem padWhile_eq (last : ℕ) (c : Byte) (size : ℤ) (p : Cursor) :
    padWhile last c size p = (min (size - 1) (-1), p.putAll last (List.replicate size.toNat c)) := by
  fun_induction padWhile last c size p with
  | case1 size p hpos ih =>
    obtain ⟨n, rfl⟩ : ∃ n : ℕ, size = n + 1 := ⟨(size - 1).toNat, by omega⟩
    rw [ih, show ((n : ℤ) + 1).toNat = n + 1 by omega, show ((n : ℤ) + 1 - 1).toNat = n by omega,
      List.replicate_succ]
    refine Prod.ext ?_ rfl
    simp only
    omega
  | case2 size p hpos =>
    rw [show size.toNat = 0 by omega]
    refine Prod.ext ?_ rfl
    simp only
    omega

theorem zerosWhile_eq (last : ℕ) (i precision : ℤ) (p : Cursor) :
    zerosWhile last i precision p =
      p.putAll last (List.replicate (precision - i).toNat (Byte.ofChar '0')) := by
  fun_induction zerosWhile last i precision p with
  | case1 precision p hpos ih =>
    rw [ih, show (precision - i).toNat = (precision - 1 - i).toNat + 1 by omega, List.replicate_succ]
    rfl
  | case2 precision p hpos =>
    rw [show (precision - i).toNat = 0 by omega]
    rfl

theorem digitsWhile_eq (last : ℕ) (tmp : List Byte) (p : Cursor) :
    digitsWhile last tmp tmp.length p = p.putAll last tmp.reverse := by
  suffices h : ∀ n, n ≤ tmp.length → ∀ p, digitsWhile last tmp n p = p.putAll last (tmp.take n).reverse by
    simpa using h tmp.length le_rfl p
  intro n hn
  induction n with
  | zero => exact fun p => rfl
  | succ n ih =>
    intro p
    have hget : tmp.getD n 0 = tmp[n] := List.getD_eq_getElem ..
    rw [digitsWhile, ih (by omega), List.take_succ_eq_append_getElem (by omega), List.reverse_append, hget]
    rfl

/-- **The digits in `tmp`**: the array is large enough. -/
theorem fillTmp_eq (digits : List Byte) {base : Word} (hbase : 1 < base.toNat) {room : ℕ} {num : Word}
    (hroom : (numeral base.toNat num.toNat).length ≤ room) :
    fillTmp digits base room num =
      .ok ((numeral base.toNat num.toNat).map fun d => digits.getD d 0) := by
  induction room generalizing num with
  | zero =>
    have hpos := List.length_pos_iff.mpr (numeral_ne_nil hbase num.toNat)
    omega
  | succ room ih =>
    rw [numeral_eq hbase] at hroom ⊢
    have hmod : (num % base).toNat = num.toNat % base.toNat := BitVec.toNat_umod
    have hdiv : (num / base).toNat = num.toNat / base.toNat := BitVec.toNat_udiv
    have hzero : num / base = 0 ↔ num.toNat / base.toNat = 0 := by
      rw [← hdiv, ← BitVec.toNat_inj]
      rfl
    rw [fillTmp, hmod]
    by_cases h : num.toNat / base.toNat = 0
    · simp only [if_pos h, hzero.mpr h, ne_eq, not_true_eq_false, if_false]
      rfl
    · rw [if_neg h, List.length_cons, ← hdiv] at hroom
      have hrest : fillTmp digits base room (num / base) =
          .ok ((numeral base.toNat (num / base).toNat).map fun d => digits.getD d 0) := ih (by omega)
      simp only [if_neg h, ne_eq, mt hzero.mp h, not_false_eq_true, if_true, hrest, Outcome.ok_bind,
        hdiv]
      rfl

/-! ### The whole function -/

/-- The sign: its character, the number and the size. -/
theorem numberSign_eq (format num : Word) (size : ℤ) :
    ∃ n, numberSign format num size =
        ((signText format num).headD 0, n, size - (signText format num).length) ∧
      n.toNat = magnitude format num := by
  have hpos : ¬ num.toInt < 0 → num.toNat = num.toInt.natAbs := by
    rw [BitVec.toInt_eq_toNat_cond]
    have := num.isLt
    split <;> omega
  have hneg : num.toInt < 0 → (-num).toNat = num.toInt.natAbs := by
    rw [BitVec.toInt_eq_toNat_cond, BitVec.toNat_neg]
    have := num.isLt
    split <;> omega
  simp only [numberSign, signText, magnitude]
  split
  · split
    · exact ⟨-num, rfl, hneg ‹_›⟩
    · split
      · exact ⟨num, rfl, hpos ‹_›⟩
      · split
        · exact ⟨num, rfl, hpos ‹_›⟩
        · exact ⟨num, by simp, hpos ‹_›⟩
  · exact ⟨num, by simp, rfl⟩

/-- The sign is written if there is one. -/
theorem put_sign (format num : Word) (last : ℕ) (p : Cursor) :
    (if (signText format num).headD 0 ≠ 0 then p.put last ((signText format num).headD 0) else p) =
      p.putAll last (signText format num) := by
  have hchars : Byte.ofChar '-' ≠ 0 ∧ Byte.ofChar '+' ≠ 0 ∧ Byte.ofChar ' ' ≠ 0 := by decide
  simp only [signText]
  split
  · split
    · exact if_pos hchars.1
    · split
      · exact if_pos hchars.2.1
      · split
        · exact if_pos hchars.2.2
        · rfl
  · rfl

theorem putPrefix_eq (p : Cursor) (last : ℕ) (base : ℤ) (format : Word) :
    putPrefix p last base format = p.putAll last (prefixText base format) := by
  simp only [putPrefix, prefixText]
  split
  · split
    · rfl
    · split <;> rfl
  · rfl

/-- The size after the prefix. -/
theorem size_prefix (size base : ℤ) (format : Word) :
    (if hasFlag format nfSpecial then if base = 16 then size - 2 else if base = 8 then size - 1 else size
      else size) = size - (prefixText base format).length := by
  simp only [prefixText]
  split
  · by_cases h8 : base = 8
    · simp [h8]
    · by_cases h16 : base = 16
      · simp only [h16, if_true]
        rfl
      · simp [h8, h16]
  · simp

/-- The digits that are stored in `tmp`. -/
theorem fillTmp_magnitude {format num n : Word} (hn : n.toNat = magnitude format num) {base : ℤ}
    (hbase : 2 ≤ base) (hbase' : base ≤ 16) :
    fillTmp (if hasFlag format nfUpcase then digitsUpcase else digitsLocase) (BitVec.ofInt 32 base) 32 n =
      .ok (digitsText num base format).reverse := by
  have hword : (BitVec.ofInt 32 base).toNat = base.toNat := by
    rw [BitVec.toNat_ofInt]
    omega
  have hpow : 2 ^ 32 ≤ base.toNat ^ 32 := Nat.pow_le_pow_left (show 2 ≤ base.toNat by omega) 32
  have hlen : (numeral base.toNat n.toNat).length ≤ 32 :=
    length_numeral_le (show 1 < base.toNat by omega) (by decide) (lt_of_lt_of_le n.isLt hpow)
  rw [fillTmp_eq _ (by omega) (by rwa [hword]), hword, hn, digitsText, List.map_reverse,
    List.reverse_reverse]
  rfl

/-- The size that is left for the padding. -/
theorem size_padding (num : Word) (base size precision : ℤ) (format : Word) :
    size - (signText format num).length - (prefixText base format).length -
      (if ((digitsText num base format).length : ℤ) > precision then
        ((digitsText num base format).length : ℤ) else precision) =
      size - (unpadded num base precision format).length := by
  simp only [unpadded, zerosText, List.length_append, List.length_replicate]
  split <;> push_cast <;> omega

/-- The zeros, after the precision is updated. -/
theorem zerosText_eq (num : Word) (base precision : ℤ) (format : Word) :
    List.replicate ((if ((digitsText num base format).length : ℤ) > precision then
        ((digitsText num base format).length : ℤ) else precision) -
          (digitsText num base format).length).toNat (Byte.ofChar '0') =
      zerosText num base precision format := by
  rw [zerosText]
  congr 1
  split <;> omega

/-- The parts of the text, one after the other. -/
theorem putAll_unpadded (p : Cursor) (last : ℕ) (num : Word) (base precision : ℤ) (format : Word) :
    p.putAll last (unpadded num base precision format) =
      (((p.putAll last (signText format num)).putAll last (prefixText base format)).putAll last
        (zerosText num base precision format)).putAll last (digitsText num base format) := by
  simp only [unpadded, Cursor.putAll_append]

/-- **`number` writes its text**, as far as the buffer goes. -/
theorem number_eq (mem : Memory) (buf last : ℕ) (num : Word) {base : ℤ} (size precision : ℤ)
    (format : Word) (hbase : 2 ≤ base) (hbase' : base ≤ 16) :
    number mem buf last num base size precision format =
      .ok (((⟨mem, buf⟩ : Cursor).putAll last (numberText num base size precision format)).terminate
        last) := by
  obtain ⟨n, hsign, hn⟩ := numberSign_eq format num size
  have htmp := fillTmp_magnitude hn hbase hbase'
  -- the format without `NF_ZEROPAD` when the number is left justified
  obtain ⟨hsigned, hplus, hspace, hleft, hspecial⟩ := clear_flags
  set format' := if hasFlag format nfLeft then format &&& ~~~nfZeropad else format with hformat'
  have hleft' : hasFlag format' nfLeft = hasFlag format nfLeft := hasFlag_clear hleft ..
  have hzero' : hasFlag format' nfZeropad = (!hasFlag format nfLeft && hasFlag format nfZeropad) :=
    hasFlag_clear_zeropad ..
  have hsign' : numberSign format' num size = numberSign format num size := by
    simp only [numberSign, hformat', hasFlag_clear hsigned, hasFlag_clear hplus, hasFlag_clear hspace]
  have hspecial' : hasFlag format' nfSpecial = hasFlag format nfSpecial := hasFlag_clear hspecial ..
  have hprefix' : prefixText base format' = prefixText base format := by
    simp only [prefixText, hspecial']
  rw [number, if_neg (by omega)]
  simp only [← hformat', hsign', hsign, size_prefix, hprefix', htmp, Outcome.ok_bind, put_sign,
    putPrefix_eq, zerosWhile_eq, digitsWhile_eq, hasFlag_zeropad_left, hleft', hzero',
    List.length_reverse, List.reverse_reverse]
  have hnone : ∀ (x : ℤ) (c : Byte), List.replicate (min x (-1)).toNat c = [] := fun x c => by
    rw [show (min x (-1)).toNat = 0 by omega]
    rfl
  rw [size_padding, zerosText_eq]
  -- one of the three loops of the padding writes it
  cases hL : hasFlag format nfLeft <;> cases hZ : hasFlag format nfZeropad <;>
    simp only [numberText, padding, hL, hZ, Bool.not_true, Bool.not_false, Bool.false_and, Bool.true_and,
      Bool.and_self, Bool.or_true, Bool.or_false, Bool.false_eq_true, not_true_eq_false,
      not_false_eq_true, if_true, if_false, padWhile_eq, hnone, Cursor.putAll_nil, Cursor.putAll_append,
      putAll_unpadded, Outcome.pure_eq]

/-! ### Reading the text -/

/-- The alphabets of digits. -/
theorem digitValue_digitText (format : Word) {d : ℕ} (h : d < 16) :
    digitValue (digitText format d) = some d := by
  have hboth : ∀ e < 16, digitValue (digitsLocase.getD e 0) = some e ∧
      digitValue (digitsUpcase.getD e 0) = some e := by decide
  rw [digitText]
  cases hasFlag format nfUpcase with
  | true => exact (hboth d h).2
  | false => exact (hboth d h).1

theorem digitText_zero (format : Word) : digitText format 0 = Byte.ofChar '0' := by
  rw [digitText]
  cases hasFlag format nfUpcase <;> decide

/-- The sign: blanks, and a sign that is read. -/
theorem signText_cases (format num : Word) : ∃ k sign, signText format num =
      List.replicate k (Byte.ofChar ' ') ++ sign ∧
    (sign = [] ∨ sign = [Byte.ofChar '+'] ∨ sign = [Byte.ofChar '-']) ∧
    (sign = [Byte.ofChar '-'] ↔ hasFlag format nfSigned = true ∧ num.toInt < 0) := by
  have hplus : Byte.ofChar '+' ≠ Byte.ofChar '-' := by decide
  rw [signText]
  cases hs : hasFlag format nfSigned with
  | false => exact ⟨0, [], rfl, by simp, by simp⟩
  | true =>
    by_cases hneg : num.toInt < 0
    · exact ⟨0, [Byte.ofChar '-'], by simp [hneg], by simp, by simp [hneg]⟩
    · cases hp : hasFlag format nfPlus with
      | true => exact ⟨0, [Byte.ofChar '+'], by simp [hneg], by simp, by simp [hneg, hplus]⟩
      | false =>
        cases hasFlag format nfSpace with
        | true => exact ⟨1, [], by simp [hneg], by simp, by simp [hneg]⟩
        | false => exact ⟨0, [], by simp [hneg], by simp, by simp [hneg]⟩

/-- The prefix: `0x` in base 16, or zeros. -/
theorem prefixText_cases (base : ℤ) (format : Word) : ∃ z pre, prefixText base format =
      pre ++ List.replicate z (Byte.ofChar '0') ∧
    (pre = [] ∨ base.toNat = 16 ∧ pre = Byte.ofString "0x") := by
  rw [prefixText]
  cases hasFlag format nfSpecial with
  | false => exact ⟨0, [], rfl, by simp⟩
  | true =>
    by_cases h8 : base = 8
    · exact ⟨1, [], by simp [h8], by simp⟩
    · by_cases h16 : base = 16
      · exact ⟨0, Byte.ofString "0x", by simp [h16], by simp [h16]⟩
      · exact ⟨0, [], by simp [h8, h16], by simp⟩

/-- **The layout, as it is read**: blanks, a sign, `0x`, zeros, the digits, and blanks. -/
theorem numberText_layout (num : Word) (base size precision : ℤ) (format : Word) :
    ∃ n m z sign pre, numberText num base size precision format =
        List.replicate n (Byte.ofChar ' ') ++ (sign ++ (pre ++ ((List.replicate z (Byte.ofChar '0') ++
          digitsText num base format) ++ List.replicate m (Byte.ofChar ' ')))) ∧
      (sign = [] ∨ sign = [Byte.ofChar '+'] ∨ sign = [Byte.ofChar '-']) ∧
      (sign = [Byte.ofChar '-'] ↔ hasFlag format nfSigned = true ∧ num.toInt < 0) ∧
      (pre = [] ∨ base.toNat = 16 ∧ pre = Byte.ofString "0x") := by
  obtain ⟨k, sign, hsign, hcases, hneg⟩ := signText_cases format num
  obtain ⟨z, pre, hpre, hhex⟩ := prefixText_cases base format
  rw [numberText]
  cases hasFlag format nfLeft with
  | true =>
    refine ⟨k, padding num base size precision format,
      z + (precision - (digitsText num base format).length).toNat, sign, pre, ?_, hcases, hneg, hhex⟩
    simp only [if_true, unpadded, zerosText, hsign, hpre, List.replicate_add, List.append_assoc]
  | false =>
    cases hasFlag format nfZeropad with
    | true =>
      refine ⟨k, 0, z + (padding num base size precision format +
        (precision - (digitsText num base format).length).toNat), sign, pre, ?_, hcases, hneg, hhex⟩
      simp only [Bool.false_eq_true, if_false, if_true, zerosText, hsign, hpre, List.replicate_add,
        List.append_assoc, List.replicate_zero, List.append_nil]
    | false =>
      refine ⟨padding num base size precision format + k, 0,
        z + (precision - (digitsText num base format).length).toNat, sign, pre, ?_, hcases, hneg, hhex⟩
      simp only [Bool.false_eq_true, if_false, unpadded, zerosText, hsign, hpre, List.replicate_add,
        List.append_assoc, List.replicate_zero, List.append_nil]

/-- **The width.** -/
theorem length_numberText (num : Word) (base size precision : ℤ) (format : Word) :
    ((numberText num base size precision format).length : ℤ) =
      max size (unpadded num base precision format).length := by
  have hlen : (numberText num base size precision format).length =
      (unpadded num base precision format).length + padding num base size precision format := by
    rw [numberText]
    split
    · simp
    · split
      · simp only [unpadded, List.length_append, List.length_replicate]
        omega
      · simp [Nat.add_comm]
  rw [hlen, padding]
  push_cast
  omega

example : numberText 0xBEEF 16 10 (-1) (nfZeropad ||| nfSpecial) = Byte.ofString "0x0000beef" := by
  decide

example : numberText (BitVec.ofInt 32 (-42)) 10 8 4 nfSigned = Byte.ofString "   -0042" := by decide

/-- **The round trip**: the text is read back as the number, signed if `NF_SIGNED` is set. -/
theorem strtol_numberText (num : Word) {base : ℤ} (size precision : ℤ) (format : Word) (hbase : 2 ≤ base)
    (hbase' : base ≤ 16) : strtol base.toNat (numberText num base size precision format) =
      if hasFlag format nfSigned then num.toInt else num.toNat := by
  obtain ⟨n, m, z, sign, pre, heq, hcases, hneg, hhex⟩ := numberText_layout num base size precision format
  set ds := List.replicate z 0 ++ (numeral base.toNat (magnitude format num)).reverse with hds
  have hmap : List.replicate z (Byte.ofChar '0') ++ digitsText num base format =
      ds.map (digitText format) := by
    rw [hds, List.map_append, List.map_replicate, digitText_zero, digitsText]
  have hne : ds ≠ [] := by
    rw [hds]
    simp [numeral_ne_nil (show 1 < base.toNat by omega)]
  have hdigits : ∀ d ∈ ds, d < base.toNat ∧ digitValue (digitText format d) = some d := by
    intro d hd
    have hlt : d < base.toNat := by
      rcases List.mem_append.mp hd with hd | hd
      · rw [List.eq_of_mem_replicate hd]
        omega
      · exact lt_of_mem_numeral (by omega) (List.mem_reverse.mp hd)
    exact ⟨hlt, digitValue_digitText format (by omega)⟩
  have hvalue : Nat.ofDigits base.toNat ds.reverse = magnitude format num := by
    rw [hds, List.reverse_append, List.reverse_reverse, List.reverse_replicate,
      Nat.ofDigits_append_replicate_zero, ofDigits_numeral]
  rw [heq, hmap, strtol_numeral (by omega) hne hdigits n m hcases hhex, hvalue]
  simp only [hneg, magnitude]
  cases hasFlag format nfSigned with
  | false => simp
  | true =>
    simp only [true_and, if_true]
    split <;> omega

/-- No byte of the text is a NUL. -/
theorem nul_notMem_numberText (num : Word) {base : ℤ} (size precision : ℤ) (format : Word)
    (hbase : 2 ≤ base) (hbase' : base ≤ 16) : 0 ∉ numberText num base size precision format := by
  obtain ⟨n, m, z, sign, pre, heq, hsign, -, hhex⟩ := numberText_layout num base size precision format
  have hblank : 0 ≠ Byte.ofChar ' ' := by decide
  have hzero : 0 ≠ Byte.ofChar '0' := by decide
  have hsign' : 0 ∉ sign := by
    rcases hsign with rfl | rfl | rfl <;> decide
  have hpre : 0 ∉ pre := by
    rcases hhex with rfl | ⟨-, rfl⟩ <;> decide
  have hdigits : 0 ∉ digitsText num base format := by
    intro h
    obtain ⟨d, hd, hd0⟩ := List.mem_map.mp h
    have hlt : d < base.toNat := lt_of_mem_numeral (by omega) (List.mem_reverse.mp hd)
    have hval := digitValue_digitText format (show d < 16 by omega)
    have hnone : digitValue 0 = none := by decide
    rw [hd0, hnone] at hval
    cases hval
  rw [heq]
  simp [List.mem_append, List.mem_replicate, hblank, hzero, hsign', hpre, hdigits]

/-- **What `number` does**: the text with a NUL behind it, if they fit, and nothing else is written. -/
theorem number_spec (mem : Memory) (buf last : ℕ) (num : Word) {base : ℤ} (size precision : ℤ)
    (format : Word) (hbase : 2 ≤ base) (hbase' : base ≤ 16)
    (hfit : buf + (numberText num base size precision format).length ≤ last) :
    ∃ p, number mem buf last num base size precision format = .ok p ∧
      p.buf = buf + (numberText num base size precision format).length ∧
      p.mem.CString buf (numberText num base size precision format) ∧
      ∀ a, a < buf ∨ buf + (numberText num base size precision format).length < a →
        p.mem a = mem a := by
  set s := numberText num base size precision format with hs
  set q := (⟨mem, buf⟩ : Cursor).putAll last s with hq
  have hqbuf : q.buf = buf + s.length := Cursor.putAll_buf ..
  have hmem : (q.terminate last).mem = q.mem.setByte q.buf 0 := if_pos (by omega)
  refine ⟨q.terminate last, number_eq mem buf last num size precision format hbase hbase', hqbuf, ?_,
    fun a ha => ?_⟩
  · rw [hmem]
    exact Cursor.putAll_cstring (nul_notMem_numberText num size precision format hbase hbase') hfit
  · rw [hmem, Memory.setByte_of_ne (by omega)]
    exact Cursor.putAll_mem last s (by
      simp only
      omega)

end Kalisto
