import Kalisto.Print.Number

/-!
# The function `vprintk` of `lib/print.c`

The format and the strings lie in a memory that printing does not change, the arguments are the words of
a `va_list`, and the array `buf [32]` is a memory of its own, from address 0 to 31.  `Printing` is the
state of the loop with two records: the characters given to the printer, and the addresses at which the
loop has read the format.

* `pieces` — a format is read as characters and conversions, possibly with a lone `%` at its end;
* `Prints` — what an iteration, and a run of iterations, does;
* `continues_pieces` — the loop prints the texts of the pieces, one after the other;
* `vprintk_contained_iff` — which formats are read up to their NUL only, and are counted;
* `number_faithful` — every number is printed as a text that is read back as the number.
-/

namespace Kalisto

open Outcome (Returns)

/-! ### The code -/

/-- The state of `vprintk`. -/
structure Printing where
  format : ℕ
  ap : ℕ
  buf : Memory
  printed : Word
  /-- The characters given to the printer. -/
  out : List Byte
  /-- The addresses of the format that were read. -/
  reads : List ℕ

namespace Printing

/-- The access `*format`. -/
def read (p : Printing) : Printing := { p with reads := p.reads ++ [p.format] }

/-- `++format`. -/
def next (p : Printing) : Printing := { p with format := p.format + 1 }

/-- `va_arg`. -/
def vaArg (p : Printing) : Printing := { p with ap := p.ap + 1 }

/-- `printed += putc (c)`. -/
def putc (p : Printing) (c : Byte) : Printing :=
  { p with out := p.out ++ [c], printed := p.printed + 1 }

/-- `printed += cnt`, after `cnt = puts (text)`. -/
def emit (p : Printing) (text : List Byte) (cnt : Word) : Printing :=
  { p with out := p.out ++ text, printed := p.printed + cnt }

end Printing

/-- One iteration of the loop of `puts`, with the characters given to the printer. -/
def putsStep (mem : Memory) : ℕ × List Byte × Word →
    Outcome PrintFault ((ℕ × List Byte × Word) ⊕ (List Byte × Word))
  | (text, out, cnt) =>
    if mem text ≠ 0 then .ok (.inl (text + 1, out ++ [mem text], cnt + 1))
    else .ok (.inr (out, cnt))

/-- `puts`: the characters, and their number. -/
def puts (mem : Memory) (text : ℕ) (fuel : ℕ) : Outcome PrintFault (List Byte × Word) :=
  Outcome.loop (putsStep mem) fuel (text, [], 0)

/-- `number (beg, end, num, ...)` and `puts (beg)`. -/
def putNumber (fuel : ℕ) (num : Word) (base width : ℤ) (flags : Word) (p : Printing) :
    Outcome PrintFault Printing := do
  let str ← number p.buf 0 31 num base width (-1) flags
  let (text, cnt) ← puts str.mem 0 fuel
  return { p with buf := str.mem }.emit text cnt

/-- `base`, `width` and `flags`, as they are set before the `switch`. -/
structure NumberFormat where
  base : ℤ := 10
  width : ℤ := -1
  flags : Word := 0

/-- The cases of the `switch` that leave it for the numbers. -/
def numberFormat (c : Byte) : Option NumberFormat :=
  if c = Byte.ofChar 'd' ∨ c = Byte.ofChar 'i' then some { flags := nfSigned }
  else if c = Byte.ofChar 'o' then some { base := 8, flags := nfSpecial }
  else if c = Byte.ofChar 'u' then some { flags := 0 }
  else if c = Byte.ofChar 'x' then
    some { base := 16, width := 2 + 2 * 4, flags := nfZeropad ||| nfSpecial }
  else none

/-- The string that is printed for `NULL`. -/
def nullString : List Byte := Byte.ofString "<NULL>"

/-- The conversion at `format`: the `switch`, and the printing of the numbers. -/
def convert (mem : Memory) (args : ℕ → Word) (fuel : ℕ) (p : Printing) : Outcome PrintFault Printing :=
  let c := mem p.format
  let arg := args p.ap
  if c = Byte.ofChar '%' then return p.putc (Byte.ofChar '%')
  else if c = Byte.ofChar 'c' then return p.vaArg.putc (Fin.ofNat 256 arg.toNat)
  else if c = Byte.ofChar 's' then do
    let (text, cnt) ← if arg ≠ 0 then puts mem arg.toNat fuel
      else puts (Memory.ofText nullString) 0 fuel
    return p.vaArg.emit text cnt
  else if c = Byte.ofChar 'p' then
    putNumber fuel arg 16 (2 + 2 * 4) (nfZeropad ||| nfSpecial) p.vaArg
  else match numberFormat c with
    | some f =>
      let num := if hasFlag f.flags nfSigned then BitVec.ofInt 32 arg.toInt else arg
      putNumber fuel num f.base f.width f.flags p.vaArg
    | none => return (p.putc (Byte.ofChar '%')).read.putc c

/-- One iteration of the loop: the state of the next one, or the last state. -/
def vprintkStep (mem : Memory) (args : ℕ → Word) (fuel : ℕ) (p : Printing) :
    Outcome PrintFault (Printing ⊕ Printing) :=
  let p := p.read
  if mem p.format = 0 then return .inr p
  else
    let p := p.read
    if mem p.format ≠ Byte.ofChar '%' then return .inl (p.read.putc (mem p.format)).next
    else do
      let p ← convert mem args fuel p.next.read
      return .inl p.next

/-- The loop of `vprintk`. -/
def vprintkLoop (mem : Memory) (args : ℕ → Word) : ℕ → Printing → Outcome PrintFault Printing
  | 0, _ => .timeout
  | fuel + 1, p => do
    match ← vprintkStep mem args fuel p with
    | .inl p => vprintkLoop mem args fuel p
    | .inr p => return p

/-- `vprintk`: the last state of the loop; `printed` is the result. -/
def vprintk (mem : Memory) (args : ℕ → Word) (format : ℕ) (buf : Memory) (fuel : ℕ) :
    Outcome PrintFault Printing :=
  vprintkLoop mem args fuel
    { format := format, ap := 0, buf := buf, printed := 0, out := [], reads := [] }

/-! ### The format -/

/-- A part of a format: a character, a `%` with the character behind it, or a `%` at the end. -/
inductive Piece where
  | char (c : Byte)
  | conversion (c : Byte)
  | percent
  deriving DecidableEq

/-- A format, taken apart. -/
def pieces : List Byte → List Piece
  | [] => []
  | c :: s =>
    if c = Byte.ofChar '%' then
      match s with
      | [] => [.percent]
      | d :: s => .conversion d :: pieces s
    else .char c :: pieces s

theorem pieces_char {c : Byte} (h : c ≠ Byte.ofChar '%') (s : List Byte) :
    pieces (c :: s) = .char c :: pieces s := by
  cases s with
  | nil => exact if_neg h
  | cons d s => exact if_neg h

namespace Piece

/-- The piece takes an argument. -/
def takesArgument : Piece → Bool
  | conversion c => c = Byte.ofChar 'c' ∨ c = Byte.ofChar 's' ∨ c = Byte.ofChar 'p' ∨
      (numberFormat c).isSome
  | _ => false

/-- The text of a piece with its argument; `strings` has the texts of the strings. -/
def text (strings : Word → List Byte) (arg : Word) : Piece → List Byte
  | char c => [c]
  | conversion c =>
    if c = Byte.ofChar '%' then [Byte.ofChar '%']
    else if c = Byte.ofChar 'c' then [Fin.ofNat 256 arg.toNat]
    else if c = Byte.ofChar 's' then if arg = 0 then nullString else strings arg
    else if c = Byte.ofChar 'p' then numberText arg 16 10 (-1) (nfZeropad ||| nfSpecial)
    else match numberFormat c with
      | some f => numberText arg f.base f.width (-1) f.flags
      | none => [Byte.ofChar '%', c]
  | percent => []

end Piece

/-- The pieces with their arguments, from the argument `ap` on. -/
def withArgs (args : ℕ → Word) : List Piece → ℕ → List (Piece × Word)
  | [], _ => []
  | q :: qs, ap => (q, args ap) :: withArgs args qs (if q.takesArgument then ap + 1 else ap)

/-- The pieces of a format with their arguments. -/
def formatArgs (args : ℕ → Word) (s : List Byte) : List (Piece × Word) := withArgs args (pieces s) 0

/-- The text that a format asks for. -/
def formatText (strings : Word → List Byte) (qs : List (Piece × Word)) : List Byte :=
  qs.flatMap fun q => q.1.text strings q.2

/-- The arguments match the format: an argument of `%s` is `NULL` or the address of its text. -/
def Matching (mem : Memory) (strings : Word → List Byte) (qs : List (Piece × Word)) : Prop :=
  ∀ q ∈ qs, q.1 = .conversion (Byte.ofChar 's') → q.2 ≠ 0 → mem.CString q.2.toNat (strings q.2)

instance (mem : Memory) (strings : Word → List Byte) (qs : List (Piece × Word)) :
    Decidable (Matching mem strings qs) :=
  inferInstanceAs (Decidable (∀ q ∈ qs, q.1 = .conversion (Byte.ofChar 's') → q.2 ≠ 0 →
    mem.CString q.2.toNat (strings q.2)))

/-- The number of percent signs at the end of a format. -/
def trailingPercents (s : List Byte) : ℕ := (s.reverse.takeWhile (· = Byte.ofChar '%')).length

/-! ### Printing -/

/-- From `p` to `p'`: so many characters further in the format, with a text printed. -/
structure Prints (p p' : Printing) (n : ℕ) (t : List Byte) : Prop where
  format : p'.format = p.format + n
  out : p'.out = p.out ++ t
  printed : p'.printed = p.printed + BitVec.ofNat 32 t.length
  reads : ∀ a ∈ p'.reads, a ∈ p.reads ∨ a ≤ p.format + n

namespace Prints

variable {p p' p'' : Printing} {n m : ℕ} {s t : List Byte}

/-- Nothing is read or printed. -/
theorem quiet (hformat : p'.format = p.format) (hout : p'.out = p.out) (hprinted : p'.printed = p.printed)
    (hreads : p'.reads = p.reads) : Prints p p' 0 [] where
  format := hformat
  out := by rw [hout, List.append_nil]
  printed := by rw [hprinted, List.length_nil, BitVec.add_zero]
  reads a ha := Or.inl (hreads ▸ ha)

theorem refl (p : Printing) : Prints p p 0 [] := quiet rfl rfl rfl rfl

theorem trans (h : Prints p p' n s) (h' : Prints p' p'' m t) : Prints p p'' (n + m) (s ++ t) where
  format := by rw [h'.format, h.format, Nat.add_assoc]
  out := by rw [h'.out, h.out, List.append_assoc]
  printed := by rw [h'.printed, h.printed, List.length_append, BitVec.ofNat_add, BitVec.add_assoc]
  reads a ha := by
    have hfmt := h.format
    rcases h'.reads a ha with ha | ha
    · rcases h.reads a ha with ha | ha
      · exact Or.inl ha
      · exact Or.inr (by omega)
    · exact Or.inr (by omega)

theorem read (p : Printing) : Prints p p.read 0 [] where
  format := rfl
  out := (List.append_nil _).symm
  printed := by simp [Printing.read]
  reads a ha := by
    rcases List.mem_append.mp ha with ha | ha
    · exact Or.inl ha
    · exact Or.inr (le_of_eq (List.mem_singleton.mp ha))

theorem next (p : Printing) : Prints p p.next 1 [] where
  format := rfl
  out := (List.append_nil _).symm
  printed := by simp [Printing.next]
  reads _ ha := Or.inl ha

theorem vaArg (p : Printing) : Prints p p.vaArg 0 [] := quiet rfl rfl rfl rfl

theorem emit (p : Printing) (t : List Byte) : Prints p (p.emit t (BitVec.ofNat 32 t.length)) 0 t where
  format := rfl
  out := rfl
  printed := rfl
  reads _ ha := Or.inl ha

theorem putc (p : Printing) (c : Byte) : Prints p (p.putc c) 0 [c] := emit p [c]

end Prints

/-! ### Strings and numbers -/

variable {mem : Memory} {args : ℕ → Word}

theorem putsLoop_eq {a : ℕ} {s : List Byte} (h : mem.CString a s) (out : List Byte) (cnt : Word)
    {fuel : ℕ} (hfuel : s.length < fuel) :
    Outcome.loop (putsStep mem) fuel (a, out, cnt) = .ok (out ++ s, cnt + BitVec.ofNat 32 s.length) := by
  obtain ⟨fuel, rfl⟩ : ∃ k, fuel = k + 1 := ⟨fuel - 1, by omega⟩
  induction s generalizing a out cnt fuel with
  | nil =>
    have hnul : putsStep mem (a, out, cnt) = .ok (.inr (out, cnt)) := if_neg (not_not.mpr h)
    rw [Outcome.loop_exit hnul, List.append_nil, List.length_nil, BitVec.add_zero]
  | cons c s ih =>
    obtain ⟨hc, hne, hrest⟩ := h
    rw [List.length_cons] at hfuel ⊢
    obtain ⟨fuel, rfl⟩ : ∃ k, fuel = k + 1 := ⟨fuel - 1, by omega⟩
    have hstep : putsStep mem (a, out, cnt) = .ok (.inl (a + 1, out ++ [c], cnt + 1)) := by
      rw [putsStep, if_pos (by rwa [hc]), hc]
    rw [Outcome.loop_next hstep, ih hrest _ _ fuel (by omega), List.append_assoc, List.singleton_append,
      BitVec.add_assoc, Nat.add_comm s.length, BitVec.ofNat_add]
    rfl

/-- **`puts` prints a string**, and counts it. -/
theorem puts_returns {a : ℕ} {s : List Byte} (h : mem.CString a s) :
    Returns (puts mem a) (s, BitVec.ofNat 32 s.length) := by
  refine ⟨s.length + 1, fun fuel hfuel => ?_⟩
  have hrun : Outcome.loop (putsStep mem) fuel (a, [], 0) = _ := putsLoop_eq h [] 0 (by omega)
  rwa [List.nil_append, BitVec.ofNat_eq_ofNat, BitVec.zero_add] at hrun

/-- The numbers of `vprintk` fit the buffer. -/
theorem length_numberText_le (num : Word) {base size : ℤ} (format : Word) (hbase : 8 ≤ base)
    (hbase' : base ≤ 16) (hsize : size ≤ 31) : (numberText num base size (-1) format).length ≤ 31 := by
  have hdigits : (digitsText num base format).length ≤ 11 := by
    rw [digitsText, List.length_map, List.length_reverse]
    have hpow : 8 ^ 11 ≤ base.toNat ^ 11 := Nat.pow_le_pow_left (by omega) 11
    have hmag : magnitude format num < 8 ^ 11 := by
      obtain ⟨n, -, hn⟩ := numberSign_eq format num 0
      rw [← hn]
      exact lt_of_lt_of_le n.isLt (by decide)
    exact length_numeral_le (by omega) (by decide) (lt_of_lt_of_le hmag hpow)
  have hsign : (signText format num).length ≤ 1 := by
    simp only [signText]
    split_ifs <;> simp
  have hpre : (prefixText base format).length ≤ 2 := by
    simp only [prefixText]
    split_ifs <;> decide
  have hzeros : (zerosText num base (-1) format).length = 0 := by
    rw [zerosText, List.length_replicate]
    omega
  have hlen := length_numberText num base size (-1) format
  simp only [unpadded, List.length_append, hzeros] at hlen
  omega

/-- **A number is printed.** -/
theorem putNumber_returns (num : Word) (base width : ℤ) (flags : Word) (p : Printing)
    (hbase : 8 ≤ base) (hbase' : base ≤ 16) (hwidth : width ≤ 31) :
    ∃ p', Returns (fun fuel => putNumber fuel num base width flags p) p' ∧ p'.ap = p.ap ∧
      Prints p p' 0 (numberText num base width (-1) flags) := by
  have hlen := length_numberText_le num flags hbase hbase' hwidth
  obtain ⟨q, hq, -, hstr, -⟩ := number_spec p.buf 0 31 num width (-1) flags
    (by omega) hbase' (by omega)
  set t := numberText num base width (-1) flags with ht
  have hbuf : Prints p { p with buf := q.mem } 0 [] := Prints.quiet rfl rfl rfl rfl
  refine ⟨{ p with buf := q.mem }.emit t (BitVec.ofNat 32 t.length), ?_, rfl,
    hbuf.trans (Prints.emit _ t)⟩
  refine Returns.bind (Outcome.returns_const hq) (Returns.bind (puts_returns hstr) ?_)
  exact Outcome.returns_const rfl

/-! ### Conversions -/

variable {strings : Word → List Byte}

/-- The formats of the numbers. -/
theorem numberFormat_bounds {c : Byte} {f : NumberFormat} (h : numberFormat c = some f) :
    8 ≤ f.base ∧ f.base ≤ 16 ∧ f.width ≤ 31 := by
  simp only [numberFormat] at h
  split_ifs at h <;> cases h <;> decide

/-- **A conversion** prints the text of its piece. -/
theorem convert_returns {p : Printing} {c : Byte} (hc : mem p.format = c)
    (hstr : c = Byte.ofChar 's' → args p.ap ≠ 0 →
      mem.CString (args p.ap).toNat (strings (args p.ap))) :
    ∃ p', Returns (fun fuel => convert mem args fuel p) p' ∧
      p'.ap = (if (Piece.conversion c).takesArgument then p.ap + 1 else p.ap) ∧
      Prints p p' 0 ((Piece.conversion c).text strings (args p.ap)) := by
  have hva := Prints.vaArg p
  simp only [convert, hc, Piece.text]
  by_cases hpercent : c = Byte.ofChar '%'
  · have htakes : (Piece.conversion c).takesArgument = false := by
      rw [hpercent]
      decide
    rw [if_neg (Bool.eq_false_iff.mp htakes), if_pos hpercent]
    simp only [if_pos hpercent]
    exact ⟨p.putc (Byte.ofChar '%'), Outcome.returns_const rfl, rfl, Prints.putc p _⟩
  simp only [if_neg hpercent]
  by_cases hchar : c = Byte.ofChar 'c'
  · have htakes : (Piece.conversion c).takesArgument = true := by simp [Piece.takesArgument, hchar]
    simp only [if_pos hchar, htakes, if_true]
    exact ⟨_, Outcome.returns_const rfl, rfl, hva.trans (Prints.putc _ _)⟩
  simp only [if_neg hchar]
  by_cases hstring : c = Byte.ofChar 's'
  · have htakes : (Piece.conversion c).takesArgument = true := by simp [Piece.takesArgument, hstring]
    simp only [if_pos hstring, htakes, if_true]
    by_cases hnull : args p.ap = 0
    · have hnul : 0 ∉ nullString := by decide
      simp only [hnull, ne_eq, not_true_eq_false, if_true, if_false]
      refine ⟨_, Returns.bind (puts_returns (Memory.cstring_ofText hnul)) (Outcome.returns_const rfl), rfl,
        ?_⟩
      exact hva.trans (Prints.emit _ _)
    · simp only [hnull, ne_eq, not_false_eq_true, if_true, if_false]
      refine ⟨_, Returns.bind (puts_returns (hstr hstring hnull)) (Outcome.returns_const rfl), rfl, ?_⟩
      exact hva.trans (Prints.emit _ _)
  simp only [if_neg hstring]
  by_cases hpointer : c = Byte.ofChar 'p'
  · have htakes : (Piece.conversion c).takesArgument = true := by simp [Piece.takesArgument, hpointer]
    simp only [if_pos hpointer, htakes, if_true]
    obtain ⟨p', hret, hap, hprints⟩ := putNumber_returns (args p.ap) 16 10
      (nfZeropad ||| nfSpecial) p.vaArg (by omega) (by omega) (by omega)
    exact ⟨p', hret, hap, hva.trans hprints⟩
  simp only [if_neg hpointer]
  cases hnumber : numberFormat c with
  | some f =>
    have htakes : (Piece.conversion c).takesArgument = true := by simp [Piece.takesArgument, hnumber]
    obtain ⟨hbase, hbase', hwidth⟩ := numberFormat_bounds hnumber
    simp only [htakes, if_true, BitVec.ofInt_toInt, ite_self]
    obtain ⟨p', hret, hap, hprints⟩ := putNumber_returns (args p.ap) f.base f.width f.flags p.vaArg hbase
      hbase' hwidth
    exact ⟨p', hret, hap, hva.trans hprints⟩
  | none =>
    have htakes : (Piece.conversion c).takesArgument = false := by
      simp [Piece.takesArgument, hchar, hstring, hpointer, hnumber]
    simp only [htakes]
    have hputc := (Prints.putc p (Byte.ofChar '%')).trans (Prints.read _)
    exact ⟨_, Outcome.returns_const rfl, rfl, hputc.trans (Prints.putc _ c)⟩

/-! ### The loop -/

/-- The loop returns from `p` what it returns from `p'`. -/
def Continues (mem : Memory) (args : ℕ → Word) (p p' : Printing) : Prop :=
  ∀ r, Returns (fun fuel => vprintkLoop mem args fuel p) r ↔
    Returns (fun fuel => vprintkLoop mem args fuel p') r

theorem Continues.refl (p : Printing) : Continues mem args p p := fun _ => Iff.rfl

theorem Continues.trans {p p' p'' : Printing} (h : Continues mem args p p')
    (h' : Continues mem args p' p'') : Continues mem args p p'' := fun r => (h r).trans (h' r)

/-- **One iteration**, with a large enough bound on the loops. -/
theorem continues_of_step {p p' : Printing}
    (h : Returns (fun fuel => vprintkStep mem args fuel p) (.inl p')) : Continues mem args p p' := by
  obtain ⟨n, hn⟩ := h
  have hnext : ∀ fuel, n ≤ fuel → vprintkLoop mem args (fuel + 1) p = vprintkLoop mem args fuel p' := by
    intro fuel hfuel
    simp only [vprintkLoop, hn fuel hfuel, Outcome.ok_bind]
  intro r
  constructor
  · rintro ⟨m, hm⟩
    refine ⟨max n m, fun fuel hfuel => ?_⟩
    exact (hnext fuel (by omega)).symm.trans (hm (fuel + 1) (by omega))
  · rintro ⟨m, hm⟩
    refine ⟨max n m + 1, fun fuel hfuel => ?_⟩
    obtain ⟨fuel, rfl⟩ : ∃ k, fuel = k + 1 := ⟨fuel - 1, by omega⟩
    exact (hnext fuel (by omega)).trans (hm fuel (by omega))

/-- The last iteration. -/
theorem returns_of_nul {p : Printing} (h : mem p.format = 0) :
    Returns (fun fuel => vprintkLoop mem args fuel p) p.read := by
  have hstep : ∀ fuel, vprintkStep mem args fuel p = .ok (.inr p.read) := fun fuel => if_pos h
  refine ⟨1, fun fuel hfuel => ?_⟩
  obtain ⟨fuel, rfl⟩ : ∃ k, fuel = k + 1 := ⟨fuel - 1, by omega⟩
  simp [vprintkLoop, hstep]

/-- A character. -/
theorem vprintkStep_char (args : ℕ → Word) {p : Printing} {c : Byte} (hc : mem p.format = c)
    (hnul : c ≠ 0) (hpercent : c ≠ Byte.ofChar '%') :
    ∃ p', Returns (fun fuel => vprintkStep mem args fuel p) (.inl p') ∧ p'.ap = p.ap ∧
      Prints p p' 1 [c] := by
  have hstep : ∀ fuel, vprintkStep mem args fuel p = .ok (.inl (p.read.read.read.putc c).next) := by
    intro fuel
    rw [← hc] at hnul hpercent ⊢
    exact (if_neg hnul).trans (if_pos hpercent)
  have hread := ((Prints.read p).trans (Prints.read _)).trans (Prints.read _)
  exact ⟨_, ⟨0, fun fuel _ => hstep fuel⟩, rfl,
    (hread.trans (Prints.putc _ c)).trans (Prints.next _)⟩

/-- **A conversion**, with any character behind the `%`. -/
theorem vprintkStep_conversion (args : ℕ → Word) (strings : Word → List Byte) {p : Printing} {c : Byte}
    (hpercent : mem p.format = Byte.ofChar '%') (hc : mem (p.format + 1) = c)
    (hstr : c = Byte.ofChar 's' → args p.ap ≠ 0 → mem.CString (args p.ap).toNat (strings (args p.ap))) :
    ∃ p', Returns (fun fuel => vprintkStep mem args fuel p) (.inl p') ∧
      p'.ap = (if (Piece.conversion c).takesArgument then p.ap + 1 else p.ap) ∧
      Prints p p' 2 ((Piece.conversion c).text strings (args p.ap)) := by
  obtain ⟨p', hret, hap, hprints⟩ := convert_returns (p := p.read.read.next.read) hc hstr
  have hstep : ∀ fuel, vprintkStep mem args fuel p =
      convert mem args fuel p.read.read.next.read >>= fun p => .ok (.inl p.next) := by
    intro fuel
    have hnul : mem p.format ≠ 0 := by
      rw [hpercent]
      decide
    exact (if_neg hnul).trans (if_neg (not_not.mpr hpercent))
  refine ⟨p'.next, ?_, hap, ?_⟩
  · simp only [hstep]
    exact Returns.bind hret (Outcome.returns_const rfl)
  · have hread := ((Prints.read p).trans (Prints.read _)).trans ((Prints.next _).trans (Prints.read _))
    have hall := (hread.trans hprints).trans (Prints.next _)
    rwa [List.append_nil] at hall

/-! ### The pieces of a format -/

/-- **The iterations** print the texts of the pieces, unless there is a lone `%`; the format may go on. -/
theorem continues_pieces {s : List Byte} (hlone : .percent ∉ pieces s) {t : List Byte} {p : Printing}
    (hs : mem.CString p.format (s ++ t))
    (hargs : Matching mem strings (withArgs args (pieces s) p.ap)) :
    ∃ p', Continues mem args p p' ∧
      Prints p p' s.length (formatText strings (withArgs args (pieces s) p.ap)) := by
  fun_induction pieces s generalizing p with
  | case1 => exact ⟨p, Continues.refl p, Prints.refl p⟩
  | case2 => simp at hlone
  | case3 d s ih =>
    obtain ⟨hpercent, -, hd, -, hrest⟩ := hs
    obtain ⟨p', hstep, hap, hprints⟩ := vprintkStep_conversion args strings hpercent
      hd fun hstr hnull => hargs _ (List.mem_cons_self ..) (by rw [hstr]) hnull
    rw [List.mem_cons, not_or] at hlone
    have hformat : p'.format = p.format + 1 + 1 := hprints.format
    obtain ⟨p'', hrun', hprints'⟩ := ih hlone.2 (by rwa [hformat]) fun q hq =>
      hargs q (List.mem_cons_of_mem _ (hap ▸ hq))
    refine ⟨p'', (continues_of_step hstep).trans hrun', ?_⟩
    have hall := hprints.trans hprints'
    rw [hap, Nat.add_comm] at hall
    exact hall
  | case4 c s hpercent ih =>
    obtain ⟨hc, hnul, hrest⟩ := hs
    obtain ⟨p', hstep, hap, hprints⟩ := vprintkStep_char args hc hnul hpercent
    rw [List.mem_cons, not_or] at hlone
    obtain ⟨p'', hrun', hprints'⟩ := ih hlone.2 (by rwa [hprints.format]) fun q hq =>
      hargs q (List.mem_cons_of_mem _ (hap ▸ hq))
    refine ⟨p'', (continues_of_step hstep).trans hrun', ?_⟩
    have hall := hprints.trans hprints'
    rw [hap, Nat.add_comm] at hall
    exact hall

/-- **A format without a lone `%`** is read up to its NUL, and its text is printed and counted. -/
theorem vprintk_returns {s : List Byte} (hlone : .percent ∉ pieces s) {format : ℕ}
    (hs : mem.CString format s) (hargs : Matching mem strings (formatArgs args s)) (buf : Memory) :
    ∃ r, Returns (vprintk mem args format buf) r ∧
      r.out = formatText strings (formatArgs args s) ∧
      r.printed = BitVec.ofNat 32 (formatText strings (formatArgs args s)).length ∧
      ∀ a ∈ r.reads, a ≤ format + s.length := by
  set p : Printing := { format := format, ap := 0, buf := buf, printed := 0, out := [], reads := [] } with hp
  obtain ⟨p', hrun, hprints⟩ := continues_pieces (t := []) (p := p) hlone
    (by rwa [List.append_nil]) hargs
  have hnul : mem p'.format = 0 := by
    rw [hprints.format]
    exact hs.nul
  have hlast := hprints.trans (Prints.read p')
  rw [List.append_nil] at hlast
  refine ⟨p'.read, (hrun _).mpr (returns_of_nul hnul), hlast.out, ?_, fun a ha => ?_⟩
  · rw [hlast.printed]
    exact BitVec.zero_add _
  · exact (hlast.reads a ha).resolve_left (List.not_mem_nil)

/-! ### A lone percent sign -/

/-- A format with a lone `%` ends in it. -/
theorem exists_of_percent_mem {s : List Byte} (h : .percent ∈ pieces s) :
    ∃ u, s = u ++ [Byte.ofChar '%'] ∧ .percent ∉ pieces u ∧ pieces s = pieces u ++ [.percent] := by
  fun_induction pieces s with
  | case1 => cases h
  | case2 => exact ⟨[], rfl, List.not_mem_nil, rfl⟩
  | case3 d s ih =>
    obtain ⟨u, rfl, hu, heq⟩ := ih (by simpa using h)
    refine ⟨Byte.ofChar '%' :: d :: u, rfl, ?_, ?_⟩
    · simpa [pieces] using hu
    · rw [heq]
      rfl
  | case4 c s hpercent ih =>
    obtain ⟨u, rfl, hu, heq⟩ := ih (by simpa using h)
    refine ⟨c :: u, rfl, ?_, ?_⟩
    · simpa [pieces_char hpercent] using hu
    · rw [heq, pieces_char hpercent]
      rfl

/-- The arguments of the first pieces. -/
theorem withArgs_subset (qs qs' : List Piece) (ap : ℕ) :
    withArgs args qs ap ⊆ withArgs args (qs ++ qs') ap := by
  induction qs generalizing ap with
  | nil => exact List.nil_subset _
  | cons q qs ih => exact List.cons_subset_cons _ (ih _)

theorem trailingPercents_cons (c : Byte) (s : List Byte) : trailingPercents (c :: s) =
    if trailingPercents s = s.length ∧ c = Byte.ofChar '%' then s.length + 1 else trailingPercents s := by
  simp only [trailingPercents, List.reverse_cons, List.takeWhile_append, List.length_reverse]
  by_cases hall : (s.reverse.takeWhile (· = Byte.ofChar '%')).length = s.length
  · by_cases hc : c = Byte.ofChar '%'
    · simp [hall, hc]
    · simp [hall, hc]
  · simp [hall]

theorem trailingPercents_le (s : List Byte) : trailingPercents s ≤ s.length := by
  have h := (List.takeWhile_sublist (l := s.reverse) (· = Byte.ofChar '%')).length_le
  rwa [List.length_reverse] at h

/-- The lone `%` is there if the number of percent signs at the end is odd. -/
theorem percent_mem_pieces_iff (s : List Byte) : .percent ∈ pieces s ↔ Odd (trailingPercents s) := by
  fun_induction pieces s with
  | case1 => decide
  | case2 => decide
  | case3 d s ih =>
    simp only [List.mem_cons, reduceCtorEq, false_or, ih, trailingPercents_cons, List.length_cons, and_true]
    have hle := trailingPercents_le s
    by_cases hall : trailingPercents s = s.length ∧ d = Byte.ofChar '%'
    · rw [if_pos hall, if_pos rfl, hall.1, Nat.odd_add_one, Nat.odd_add_one, not_not]
    · rw [if_neg hall, if_neg (by omega)]
  | case4 c s hpercent ih =>
    simp only [List.mem_cons, reduceCtorEq, false_or, ih, trailingPercents_cons, hpercent, and_false,
      if_false]

/-- What a run of the loop keeps: the characters that were printed and the addresses that were read. -/
structure Grows (p p' : Printing) : Prop where
  out : p.out <+: p'.out
  reads : p.reads ⊆ p'.reads

namespace Grows

variable {p p' p'' : Printing}

theorem trans (h : Grows p p') (h' : Grows p' p'') : Grows p p'' where
  out := h.out.trans h'.out
  reads := List.Subset.trans h.reads h'.reads

/-- Characters are added. -/
theorem of_out {t : List Byte} (hout : p'.out = p.out ++ t) (hreads : p'.reads = p.reads) : Grows p p' where
  out := hout ▸ List.prefix_append ..
  reads := hreads ▸ List.Subset.refl _

theorem putc (p : Printing) (c : Byte) : Grows p (p.putc c) := of_out rfl rfl

theorem read (p : Printing) : Grows p p.read where
  out := List.prefix_refl _
  reads := List.subset_append_left ..

end Grows

/-- A conversion prints behind what is there. -/
theorem grows_convert {p p' : Printing} {fuel : ℕ} (h : convert mem args fuel p = .ok p') : Grows p p' := by
  have hnumber : ∀ {num : Word} {base width : ℤ} {flags : Word},
      putNumber fuel num base width flags p.vaArg = .ok p' → Grows p p' := by
    intro num base width flags h
    obtain ⟨q, -, h⟩ := Outcome.bind_eq_ok.mp h
    obtain ⟨x, -, h⟩ := Outcome.bind_eq_ok.mp h
    cases h
    exact Grows.of_out rfl rfl
  simp only [convert] at h
  split at h
  · cases h
    exact Grows.putc p _
  · split at h
    · cases h
      exact Grows.of_out rfl rfl
    · split at h
      · split at h <;> obtain ⟨x, -, h⟩ := Outcome.bind_eq_ok.mp h
        · cases h
          exact Grows.of_out rfl rfl
        · cases h
          exact Grows.of_out rfl rfl
      · split at h
        · exact hnumber h
        · split at h
          · exact hnumber h
          · cases h
            exact ((Grows.putc p _).trans (Grows.read _)).trans (Grows.putc _ _)

/-- An iteration reads its first character. -/
theorem grows_vprintkStep {p : Printing} {x : Printing ⊕ Printing} {fuel : ℕ}
    (h : vprintkStep mem args fuel p = .ok x) : Grows p.read (x.elim id id) := by
  simp only [vprintkStep] at h
  split at h
  · cases h
    exact Grows.of_out (List.append_nil _).symm rfl
  · split at h
    · cases h
      have hread := (Grows.read p.read).trans (Grows.read _)
      exact (hread.trans (Grows.putc _ _)).trans (Grows.of_out (List.append_nil _).symm rfl)
    · obtain ⟨p', hconv, h⟩ := Outcome.bind_eq_ok.mp h
      cases h
      have hnext : Grows p.read.read p.read.read.next := Grows.of_out (List.append_nil _).symm rfl
      have hconv' := ((Grows.read p.read).trans (hnext.trans (Grows.read _))).trans (grows_convert hconv)
      exact hconv'.trans (Grows.of_out (List.append_nil _).symm rfl)

/-- **What `vprintk` returns**: the loop reads its first character, and keeps what it has. -/
theorem grows_of_returns {p r : Printing} (h : Returns (fun fuel => vprintkLoop mem args fuel p) r) :
    Grows p.read r := by
  obtain ⟨n, hn⟩ := h
  have hrun : vprintkLoop mem args n p = .ok r := hn n le_rfl
  clear hn
  induction n generalizing p with
  | zero => cases hrun
  | succ n ih =>
    obtain ⟨x, hstep, hrest⟩ := Outcome.bind_eq_ok.mp hrun
    have hgrows := grows_vprintkStep hstep
    cases x with
    | inl p' => exact hgrows.trans ((Grows.read p').trans (ih hrest))
    | inr p' =>
      cases hrest
      exact hgrows

/-- **A lone `%`**: the character behind the NUL is read. -/
theorem reads_of_percent_mem {s : List Byte} (hlone : .percent ∈ pieces s) {format : ℕ}
    (hs : mem.CString format s) (hargs : Matching mem strings (formatArgs args s)) {buf : Memory}
    {r : Printing} (hr : Returns (vprintk mem args format buf) r) :
    format + s.length + 1 ∈ r.reads := by
  obtain ⟨u, rfl, hu, heq⟩ := exists_of_percent_mem hlone
  set p : Printing := { format := format, ap := 0, buf := buf, printed := 0, out := [], reads := [] } with hp
  rw [formatArgs, heq] at hargs
  obtain ⟨p', hrun, hprints⟩ := continues_pieces (p := p) hu hs fun q hq =>
    hargs q (withArgs_subset _ _ _ hq)
  obtain ⟨hpercent, -, hnul⟩ := hs.drop
  rw [← hprints.format] at hpercent hnul
  obtain ⟨p'', hstep, -, hprints'⟩ := vprintkStep_conversion args strings hpercent
    hnul fun h => absurd h (by decide)
  have hgrows := grows_of_returns ((continues_of_step hstep r).mp ((hrun r).mp hr))
  have hmem : p''.format ∈ p''.read.reads := List.mem_append_right _ (List.mem_singleton_self _)
  have hformat : p''.format = format + (u ++ [Byte.ofChar '%']).length + 1 := by
    rw [hprints'.format, hprints.format, List.length_append]
    rfl
  exact hformat ▸ hgrows.reads hmem

/-! ### Which formats `vprintk` prints -/

/-- `vprintk` returns the number of the characters that it printed, and has read the format up to its
NUL only. -/
def Contained (mem : Memory) (args : ℕ → Word) (format : ℕ) (buf : Memory) (s : List Byte) : Prop :=
  ∃ r, Returns (vprintk mem args format buf) r ∧ (∀ a ∈ r.reads, a ≤ format + s.length) ∧
    r.printed.toNat = r.out.length

/-- **When `vprintk` stays inside its format**: the percent signs at the end are even in number, and the
text is shorter than `2 ^ 32`. -/
theorem vprintk_contained_iff {mem : Memory} {args : ℕ → Word} (strings : Word → List Byte)
    {format : ℕ} {s : List Byte} (hs : mem.CString format s) (hargs : Matching mem strings (formatArgs args s))
    (buf : Memory) : Contained mem args format buf s ↔
      Even (trailingPercents s) ∧ (formatText strings (formatArgs args s)).length < 2 ^ 32 := by
  rw [← Nat.not_odd_iff_even, ← percent_mem_pieces_iff]
  by_cases hlone : .percent ∈ pieces s
  · refine iff_of_false ?_ (fun h => h.1 hlone)
    rintro ⟨r, hr, hreads, -⟩
    have := hreads _ (reads_of_percent_mem hlone hs hargs hr)
    omega
  · obtain ⟨r, hr, hout, hprinted, hreads⟩ := vprintk_returns hlone hs hargs buf
    have hcount : r.printed.toNat = r.out.length ↔
        (formatText strings (formatArgs args s)).length < 2 ^ 32 := by
      rw [hprinted, hout, BitVec.toNat_ofNat]
      exact Nat.mod_eq_iff_lt (by decide)
    constructor
    · rintro ⟨r', hr', -, heq⟩
      obtain rfl := hr'.unique hr
      exact ⟨hlone, hcount.mp heq⟩
    · rintro ⟨-, hlt⟩
      exact ⟨r, hr, hreads, hcount.mpr hlt⟩

/-- `"%s%%"` with a string. -/
theorem vprintk_contained_string :
    Contained (Memory.ofText (Byte.ofString "%s%%" ++ 0 :: Byte.ofString "ab")) (fun _ => 5) 0
      (fun _ => 0) (Byte.ofString "%s%%") :=
  (vprintk_contained_iff (fun _ => Byte.ofString "ab") (by decide) (by decide) _).mpr
    (by decide)

/-- `"%"`: the NUL is taken for a conversion, and the loop goes on behind it. -/
theorem vprintk_percent :
    (Memory.ofText (Byte.ofString "%")).CString 0 (Byte.ofString "%") ∧
      Matching (Memory.ofText (Byte.ofString "%")) (fun _ => [])
        (formatArgs (fun _ => 0) (Byte.ofString "%")) ∧
      ¬ Contained (Memory.ofText (Byte.ofString "%")) (fun _ => 0) 0 (fun _ => 0) (Byte.ofString "%") := by
  have hs : (Memory.ofText (Byte.ofString "%")).CString 0 (Byte.ofString "%") := by decide
  have hargs : Matching (Memory.ofText (Byte.ofString "%")) (fun _ => [])
      (formatArgs (fun _ => 0) (Byte.ofString "%")) := by decide
  refine ⟨hs, hargs, ?_⟩
  rintro ⟨r, hr, hreads, -⟩
  have hbeyond := hreads _ (reads_of_percent_mem (by decide) hs hargs hr)
  omega

/-! ### Reading the numbers -/

/-- The conversions of numbers, with their bases. -/
def numberBases : List (Byte × ℕ) :=
  [(Byte.ofChar 'd', 10), (Byte.ofChar 'i', 10), (Byte.ofChar 'u', 10), (Byte.ofChar 'o', 8),
    (Byte.ofChar 'x', 16), (Byte.ofChar 'p', 16)]

/-- The number that a conversion prints. -/
def numberValue (c : Byte) (arg : Word) : ℤ :=
  if c = Byte.ofChar 'd' ∨ c = Byte.ofChar 'i' then arg.toInt else arg.toNat

/-- The text of a conversion of a number is read back. -/
theorem strtol_text {c : Byte} {b : ℕ} (h : (c, b) ∈ numberBases) (strings : Word → List Byte)
    (arg : Word) : strtol b ((Piece.conversion c).text strings arg) = numberValue c arg := by
  have hread : ∀ (base size : ℤ) (flags : Word), 2 ≤ base → base ≤ 16 →
      hasFlag flags nfSigned = decide (c = Byte.ofChar 'd' ∨ c = Byte.ofChar 'i') →
      (Piece.conversion c).text strings arg = numberText arg base size (-1) flags →
      strtol base.toNat ((Piece.conversion c).text strings arg) = numberValue c arg := by
    intro base size flags hbase hbase' hsigned htext
    rw [htext, strtol_numberText arg size (-1) flags hbase hbase', hsigned, numberValue]
    simp only [decide_eq_true_eq]
  simp only [numberBases, List.mem_cons, List.not_mem_nil, or_false, Prod.mk.injEq] at h
  rcases h with ⟨rfl, rfl⟩ | ⟨rfl, rfl⟩ | ⟨rfl, rfl⟩ | ⟨rfl, rfl⟩ | ⟨rfl, rfl⟩ | ⟨rfl, rfl⟩
  · exact hread 10 (-1) nfSigned (by decide) (by decide) (by decide) rfl
  · exact hread 10 (-1) nfSigned (by decide) (by decide) (by decide) rfl
  · exact hread 10 (-1) 0 (by decide) (by decide) (by decide) rfl
  · exact hread 8 (-1) nfSpecial (by decide) (by decide) (by decide) rfl
  · exact hread 16 10 (nfZeropad ||| nfSpecial) (by decide) (by decide) (by decide) rfl
  · exact hread 16 10 (nfZeropad ||| nfSpecial) (by decide) (by decide) (by decide) rfl

/-- The conversions of numbers take an argument, and no string. -/
theorem takesArgument_of_mem {c : Byte} {b : ℕ} (h : (c, b) ∈ numberBases) :
    (Piece.conversion c).takesArgument = true ∧ c ≠ Byte.ofChar 's' := by
  have hall : ∀ x ∈ numberBases, (Piece.conversion x.1).takesArgument = true ∧ x.1 ≠ Byte.ofChar 's' := by
    decide
  exact hall _ h

/-- **`number` is faithful**: it writes its text with a NUL behind it and nothing else, the text is as
wide as it must be, and it is read back as the number; and so is every number that `vprintk` prints, in
whatever state its loop is. -/
theorem number_faithful (mem : Memory) (buf last : ℕ) (num : Word) {base : ℤ} (size precision : ℤ)
    (format : Word) (hbase : 2 ≤ base) (hbase' : base ≤ 16)
    (hfit : buf + (numberText num base size precision format).length ≤ last) :
    (∃ p, number mem buf last num base size precision format = .ok p ∧
      p.buf = buf + (numberText num base size precision format).length ∧
      p.mem.CString buf (numberText num base size precision format) ∧
      (∀ a, a < buf ∨ last < a → p.mem a = mem a) ∧
      ((numberText num base size precision format).length : ℤ) =
        max size (unpadded num base precision format).length ∧
      strtol base.toNat (numberText num base size precision format) =
        if hasFlag format nfSigned then num.toInt else num.toNat) ∧
    ∀ (mem : Memory) (args : ℕ → Word) (p : Printing) (c : Byte) (b : ℕ), (c, b) ∈ numberBases →
      mem p.format = Byte.ofChar '%' → mem (p.format + 1) = c →
      ∃ p' t, Returns (fun fuel => vprintkStep mem args fuel p) (.inl p') ∧
        p'.format = p.format + 2 ∧ p'.ap = p.ap + 1 ∧ p'.out = p.out ++ t ∧
        strtol b t = numberValue c (args p.ap) ∧
        ∀ r, Returns (fun fuel => vprintkLoop mem args fuel p) r → p.out ++ t <+: r.out := by
  constructor
  · obtain ⟨p, hp, hbuf, hstr, hframe⟩ := number_spec mem buf last num size precision format hbase hbase' hfit
    exact ⟨p, hp, hbuf, hstr, fun a ha => hframe a (by omega),
      length_numberText num base size precision format,
      strtol_numberText num size precision format hbase hbase'⟩
  · intro mem args p c b hc hpercent hchar
    obtain ⟨htakes, hstring⟩ := takesArgument_of_mem hc
    obtain ⟨p', hstep, hap, hprints⟩ := vprintkStep_conversion args (fun _ => []) hpercent hchar
      fun h => absurd h hstring
    rw [if_pos htakes] at hap
    refine ⟨p', _, hstep, hprints.format, hap, hprints.out, strtol_text hc _ _, fun r hr => ?_⟩
    rw [← hprints.out]
    exact (grows_of_returns ((continues_of_step hstep r).mp hr)).out

/-- A negative number, padded with zeros, and `"%d"`. -/
theorem number_faithful_negative :
    (∃ p, number (fun _ => 0) 0 31 (BitVec.ofInt 32 (-5)) 10 6 (-1) (nfSigned ||| nfZeropad) = .ok p ∧
      p.mem.CString 0 (Byte.ofString "-00005")) ∧
    ∃ p' t, Returns (fun fuel => vprintkStep (Memory.ofText (Byte.ofString "%d")) (fun _ => -5) fuel
        { format := 0, ap := 0, buf := fun _ => 0, printed := 0, out := [], reads := [] }) (.inl p') ∧
      p'.out = t ∧ strtol 10 t = -5 := by
  have htext : numberText (BitVec.ofInt 32 (-5)) 10 6 (-1) (nfSigned ||| nfZeropad) =
      Byte.ofString "-00005" := by decide
  have h := number_faithful (fun _ => 0) 0 31 (BitVec.ofInt 32 (-5)) 6 (-1)
    (nfSigned ||| nfZeropad) (show (2 : ℤ) ≤ 10 by decide) (by decide) (by rw [htext]; decide)
  obtain ⟨⟨p, hp, -, hstr, -⟩, hprintk⟩ := h
  rw [htext] at hstr
  obtain ⟨p', t, hstep, -, -, hout, hvalue, -⟩ := hprintk (Memory.ofText (Byte.ofString "%d")) (fun _ => -5)
    { format := 0, ap := 0, buf := fun _ => 0, printed := 0, out := [], reads := [] } (Byte.ofChar 'd') 10
    (by decide) (by decide) (by decide)
  exact ⟨⟨p, hp, hstr⟩, p', t, hstep, hout, hvalue.trans (by decide)⟩

end Kalisto
