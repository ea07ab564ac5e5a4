import Kalisto.Lib.ByteMemory

/-!
# Texts in memory, and numbers as texts

* `Memory.CString m a s` — the text `s` lies at address `a` and is terminated by a NUL;
* `numeral b n` — the digits of `n` in base `b`, the lowest first, with the one digit of zero;
* `strtol b s` — the number at the beginning of a text: blanks, a sign, `0x` in base 16, and digits up to
  the first byte that is none.  `strtol_numeral` is the round trip, for any alphabet of digits that
  `digitValue` reads.
-/

/-- The byte of a character. -/
def Byte.ofChar (c : Char) : Byte := Fin.ofNat 256 c.toNat

/-- The bytes of a string. -/
def Byte.ofString (s : String) : List Byte := s.toList.map Byte.ofChar

namespace Memory

/-- The text lies at the address, has no NUL inside, and a NUL follows. -/
def CString (m : Memory) : ℕ → List Byte → Prop
  | a, [] => m a = 0
  | a, c :: s => m a = c ∧ c ≠ 0 ∧ CString m (a + 1) s

instance CString.decidable (m : Memory) : (a : ℕ) → (s : List Byte) → Decidable (m.CString a s)
  | a, [] => inferInstanceAs (Decidable (m a = 0))
  | a, c :: s =>
    have := CString.decidable m (a + 1) s
    inferInstanceAs (Decidable (m a = c ∧ c ≠ 0 ∧ m.CString (a + 1) s))

variable {m : Memory} {a : ℕ} {s t : List Byte}

theorem CString.nul (h : m.CString a s) : m (a + s.length) = 0 := by
  induction s generalizing a with
  | nil => exact h
  | cons c s ih =>
    rw [List.length_cons, Nat.add_comm s.length, ← Nat.add_assoc]
    exact ih h.2.2

/-- The rest of a text. -/
theorem CString.drop (h : m.CString a (s ++ t)) : m.CString (a + s.length) t := by
  induction s generalizing a with
  | nil => exact h
  | cons c s ih =>
    rw [List.length_cons, Nat.add_comm s.length, ← Nat.add_assoc]
    exact ih h.2.2

theorem CString.head {c : Byte} (h : m.CString a (c :: s)) : m a = c := h.1

/-- The memory with a text at address 0, and NULs behind it. -/
def ofText (s : List Byte) : Memory := fun a => s.getD a 0

theorem cstring_ofText (h : 0 ∉ s) : (ofText s).CString 0 s := by
  suffices hrest : ∀ t, (ofText (t ++ s)).CString t.length s by
    simpa using hrest []
  intro t
  induction s generalizing t with
  | nil => simp [CString, ofText]
  | cons c s ih =>
    rw [List.mem_cons, not_or] at h
    refine ⟨by simp [ofText], Ne.symm h.1, ?_⟩
    have hrest := ih h.2 (t ++ [c])
    rwa [List.append_assoc, List.singleton_append, List.length_append, List.length_singleton] at hrest

end Memory

/-! ### Digits -/

/-- The digits of a number, the lowest first; zero has one digit. -/
def numeral (b n : ℕ) : List ℕ := if n = 0 then [0] else Nat.digits b n

section Numeral

variable {b n : ℕ}

/-- **One division** gives one digit. -/
theorem numeral_eq (hb : 1 < b) (n : ℕ) :
    numeral b n = n % b :: if n / b = 0 then [] else numeral b (n / b) := by
  rcases Nat.eq_zero_or_pos n with rfl | hn
  · simp [numeral]
  · rw [numeral, if_neg hn.ne', Nat.digits_def' hb hn]
    by_cases h : n / b = 0
    · simp [h]
    · simp [numeral, h]

theorem numeral_ne_nil (hb : 1 < b) (n : ℕ) : numeral b n ≠ [] := by
  rw [numeral_eq hb]
  simp

theorem lt_of_mem_numeral (hb : 1 < b) {d : ℕ} (h : d ∈ numeral b n) : d < b := by
  by_cases hn : n = 0
  · simp only [numeral, hn, if_true, List.mem_singleton] at h
    omega
  · rw [numeral, if_neg hn] at h
    exact Nat.digits_lt_base hb h

theorem ofDigits_numeral (b n : ℕ) : Nat.ofDigits b (numeral b n) = n := by
  by_cases hn : n = 0
  · simp [numeral, hn]
  · rw [numeral, if_neg hn, Nat.ofDigits_digits]

theorem length_numeral_le (hb : 1 < b) {k : ℕ} (hk : 0 < k) (h : n < b ^ k) :
    (numeral b n).length ≤ k := by
  by_cases hn : n = 0
  · simp [numeral, hn]
    omega
  · rw [numeral, if_neg hn]
    exact (Nat.digits_length_le_iff hb n).mpr h

end Numeral

/-! ### Reading numbers -/

/-- The value of a digit or letter. -/
def digitValue (c : Byte) : Option ℕ :=
  if 48 ≤ c ∧ c ≤ 57 then some (c.val - 48)
  else if 97 ≤ c ∧ c ≤ 122 then some (c.val - 87)
  else if 65 ≤ c ∧ c ≤ 90 then some (c.val - 55)
  else none

/-- The digits at the beginning of a text. -/
def readDigits (b : ℕ) : ℕ → List Byte → ℕ
  | acc, [] => acc
  | acc, c :: s =>
    match digitValue c with
    | some d => if d < b then readDigits b (acc * b + d) s else acc
    | none => acc

/-- The prefix of base 16. -/
def dropHex (b : ℕ) : List Byte → List Byte
  | c :: d :: s => if b = 16 ∧ c = Byte.ofChar '0' ∧ d = Byte.ofChar 'x' then s else c :: d :: s
  | s => s

/-- `strtol`: the number at the beginning of a text. -/
def strtol (b : ℕ) (s : List Byte) : ℤ :=
  match s.dropWhile (· = Byte.ofChar ' ') with
  | [] => 0
  | c :: s =>
    if c = Byte.ofChar '-' then -(readDigits b 0 (dropHex b s))
    else if c = Byte.ofChar '+' then readDigits b 0 (dropHex b s)
    else readDigits b 0 (dropHex b (c :: s))

section Reading

variable {b : ℕ} {digit : ℕ → Byte}

/-- **The digits are read back**, the highest first. -/
theorem readDigits_map {ds : List ℕ} (hds : ∀ d ∈ ds, d < b ∧ digitValue (digit d) = some d) (acc : ℕ)
    (s : List Byte) :
    readDigits b acc (ds.map digit ++ s) = readDigits b (ds.foldl (fun a d => a * b + d) acc) s := by
  induction ds generalizing acc with
  | nil => rfl
  | cons d ds ih =>
    obtain ⟨hlt, hval⟩ := hds d (by simp)
    simp only [List.map_cons, List.cons_append, readDigits, hval, if_pos hlt, List.foldl_cons]
    exact ih (fun e he => hds e (by simp [he])) _

/-- Blanks end a number. -/
theorem readDigits_blanks (b acc m : ℕ) :
    readDigits b acc (List.replicate m (Byte.ofChar ' ')) = acc := by
  cases m with
  | zero => rfl
  | succ m =>
    have hblank : digitValue (Byte.ofChar ' ') = none := by decide
    simp [List.replicate_succ, readDigits, hblank]

theorem foldl_digits (b : ℕ) (ds : List ℕ) :
    ds.reverse.foldl (fun a d => a * b + d) 0 = Nat.ofDigits b ds := by
  induction ds with
  | nil => rfl
  | cons d ds ih =>
    rw [List.reverse_cons, List.foldl_append, ih, Nat.ofDigits_cons]
    simp only [List.foldl_cons, List.foldl_nil]
    ring

theorem dropHex_of_not_mem {s : List Byte} (h : Byte.ofChar 'x' ∉ s) : dropHex b s = s := by
  match s with
  | [] => rfl
  | [c] => rfl
  | c :: d :: s =>
    refine if_neg fun hx => h ?_
    rw [hx.2.2]
    simp

theorem dropWhile_blanks (n : ℕ) {c : Byte} (hc : c ≠ Byte.ofChar ' ') (s : List Byte) :
    (List.replicate n (Byte.ofChar ' ') ++ c :: s).dropWhile (· = Byte.ofChar ' ') = c :: s := by
  induction n with
  | zero => simp [hc]
  | succ n ih => simpa [List.replicate_succ] using ih

/-- Letters that are no digits of a base. -/
theorem ne_digit {c : Byte} {d : ℕ} (hd : d < b) (hval : digitValue (digit d) = some d)
    (hc : ∀ v, digitValue c = some v → b ≤ v) : digit d ≠ c := by
  rintro rfl
  have := hc d hval
  omega

/-- The digits and the blanks behind them, with the prefix. -/
theorem dropHex_numeral (hb : b ≤ 16) {ds : List ℕ}
    (hds : ∀ d ∈ ds, d < b ∧ digitValue (digit d) = some d) (m : ℕ) {pre : List Byte}
    (hpre : pre = [] ∨ b = 16 ∧ pre = Byte.ofString "0x") :
    dropHex b (pre ++ (ds.map digit ++ List.replicate m (Byte.ofChar ' '))) =
      ds.map digit ++ List.replicate m (Byte.ofChar ' ') := by
  rcases hpre with rfl | ⟨rfl, rfl⟩
  · rw [List.nil_append]
    refine dropHex_of_not_mem fun hx => ?_
    rcases List.mem_append.mp hx with hx | hx
    · obtain ⟨d, hd, hdx⟩ := List.mem_map.mp hx
      obtain ⟨hlt, hval⟩ := hds d hd
      refine ne_digit hlt hval (fun v hv => ?_) hdx
      have hv33 : digitValue (Byte.ofChar 'x') = some 33 := by decide
      rw [hv33, Option.some.injEq] at hv
      omega
    · have hne : Byte.ofChar 'x' ≠ Byte.ofChar ' ' := by decide
      exact hne (List.eq_of_mem_replicate hx)
  · rw [show Byte.ofString "0x" = [Byte.ofChar '0', Byte.ofChar 'x'] from rfl]
    simp [dropHex]

/-- The number begins with a byte that is neither a blank nor a sign. -/
theorem exists_head_numeral {ds : List ℕ} (hne : ds ≠ [])
    (hds : ∀ d ∈ ds, d < b ∧ digitValue (digit d) = some d) {pre : List Byte}
    (hpre : pre = [] ∨ b = 16 ∧ pre = Byte.ofString "0x") (s : List Byte) :
    ∃ c t, pre ++ (ds.map digit ++ s) = c :: t ∧ c ≠ Byte.ofChar ' ' ∧ c ≠ Byte.ofChar '-' ∧
      c ≠ Byte.ofChar '+' := by
  rcases hpre with rfl | ⟨rfl, rfl⟩
  · obtain ⟨d, ds, rfl⟩ := List.exists_cons_of_ne_nil hne
    obtain ⟨hlt, hval⟩ := hds d (by simp)
    have hne : ∀ c, digitValue c = none → digit d ≠ c := by
      rintro c hc rfl
      rw [hval] at hc
      cases hc
    exact ⟨digit d, ds.map digit ++ s, rfl, hne _ (by decide), hne _ (by decide), hne _ (by decide)⟩
  · exact ⟨Byte.ofChar '0', _, rfl, by decide, by decide, by decide⟩

/-- **The round trip.**  A text of blanks, a sign, possibly `0x`, digits and blanks is read as the number
of the digits with the sign. -/
theorem strtol_numeral (hb : b ≤ 16) {ds : List ℕ} (hne : ds ≠ [])
    (hds : ∀ d ∈ ds, d < b ∧ digitValue (digit d) = some d) (n m : ℕ) {sign pre : List Byte}
    (hsign : sign = [] ∨ sign = [Byte.ofChar '+'] ∨ sign = [Byte.ofChar '-'])
    (hpre : pre = [] ∨ b = 16 ∧ pre = Byte.ofString "0x") :
    strtol b (List.replicate n (Byte.ofChar ' ') ++ (sign ++ (pre ++ (ds.map digit ++
        List.replicate m (Byte.ofChar ' '))))) =
      if sign = [Byte.ofChar '-'] then -((Nat.ofDigits b ds.reverse : ℕ) : ℤ)
      else ((Nat.ofDigits b ds.reverse : ℕ) : ℤ) := by
  have hread : readDigits b 0 (ds.map digit ++ List.replicate m (Byte.ofChar ' ')) =
      Nat.ofDigits b ds.reverse := by
    rw [readDigits_map hds, readDigits_blanks, ← foldl_digits, List.reverse_reverse]
  have hdrop := dropHex_numeral hb hds m hpre
  rcases hsign with rfl | rfl | rfl
  · obtain ⟨c, t, heq, hblank, hminus, hplus⟩ :=
      exists_head_numeral hne hds hpre (List.replicate m (Byte.ofChar ' '))
    rw [heq] at hdrop
    rw [List.nil_append, heq, strtol, dropWhile_blanks n hblank]
    simp [hminus, hplus, hdrop, hread]
  · have hplus : Byte.ofChar '+' ≠ Byte.ofChar ' ' := by decide
    rw [List.singleton_append, strtol, dropWhile_blanks n hplus]
    have hne : Byte.ofChar '+' ≠ Byte.ofChar '-' := by decide
    simp [hne, hdrop, hread]
  · have hminus : Byte.ofChar '-' ≠ Byte.ofChar ' ' := by decide
    rw [List.singleton_append, strtol, dropWhile_blanks n hminus]
    simp only [if_true, hdrop, hread]

end Reading
