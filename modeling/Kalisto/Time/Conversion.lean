import Kalisto.Time.Timer

/-!
# The conversions of `time/time.h`

`sec_to_jiffies`, `usec_to_jiffies`, `jiffies_to_sec` and `jiffies_to_usec` against the exact values.  A
unit of time is a number of microseconds and a jiffy is 1000 of them, so an exact conversion is one
division that rounds up.

* `time_conversions_iff` — a conversion whose exact result fits in 32 bits is exact if and only if the
  number that the code divides fits as well; the same condition says when `usec_to_jiffies` does not
  round down, and when `thread_usleep` does not ask for less time than its argument.
-/

namespace Kalisto

/-! ### The four functions -/

/-- `sec_to_jiffies`. -/
def secToJiffies (sec : Word) : Word := SleepUnit.sec.toJiffies sec

/-- `usec_to_jiffies`. -/
def usecToJiffies (usec : Word) : Word := SleepUnit.usec.toJiffies usec

/-- `jiffies_to_sec`. -/
def jiffiesToSec (jiffies : Word) : Word := SleepUnit.sec.ofJiffies jiffies

/-- `jiffies_to_usec`. -/
def jiffiesToUsec (jiffies : Word) : Word := SleepUnit.usec.ofJiffies jiffies

theorem secToJiffies_toNat (n : Word) : (secToJiffies n).toNat = n.toNat * 1000 % 2 ^ 32 := by
  rw [secToJiffies, SleepUnit.toJiffies, BitVec.toNat_mul]
  rfl

theorem usecToJiffies_toNat (n : Word) :
    (usecToJiffies n).toNat = (n.toNat * 1000 + 999999) % 2 ^ 32 / 1000000 := by
  have hdiv : (usecToJiffies n).toNat = (n * timerPeriod + 999999).toNat / 1000000 := BitVec.toNat_udiv
  have hperiod : timerPeriod.toNat = 1000 := rfl
  have hround : (999999 : Word).toNat = 999999 := rfl
  rw [hdiv, BitVec.toNat_add, BitVec.toNat_mul, hperiod, hround, Nat.mod_add_mod]

/-- The rounding term of the last two functions. -/
theorem add_timerPeriod_sub_one (x : Word) : (x + timerPeriod - 1).toNat = (x.toNat + 999) % 2 ^ 32 := by
  have hperiod : timerPeriod.toNat = 1000 := rfl
  have hone : (1 : Word).toNat = 1 := rfl
  rw [BitVec.toNat_sub, BitVec.toNat_add, hperiod, hone]
  omega

theorem jiffiesToSec_toNat (n : Word) : (jiffiesToSec n).toNat = (n.toNat + 999) % 2 ^ 32 / 1000 := by
  have hdiv : (jiffiesToSec n).toNat = (n + timerPeriod - 1).toNat / 1000 := BitVec.toNat_udiv
  rw [hdiv, add_timerPeriod_sub_one]

theorem jiffiesToUsec_toNat (n : Word) :
    (jiffiesToUsec n).toNat = (n.toNat * 1000000 + 999) % 2 ^ 32 / 1000 := by
  have hdiv : (jiffiesToUsec n).toNat = (n * 1000000 + timerPeriod - 1).toNat / 1000 :=
    BitVec.toNat_udiv
  have hmicros : (1000000 : Word).toNat = 1000000 := rfl
  rw [hdiv, add_timerPeriod_sub_one, BitVec.toNat_mul, hmicros, Nat.mod_add_mod]

/-! ### Exact values -/

/-- The length of a unit in microseconds. -/
def SleepUnit.micros : SleepUnit → ℕ
  | sec => 1000000
  | usec => 1

/-- The least number of jiffies that lasts `n` units. -/
def SleepUnit.exactJiffies (u : SleepUnit) (n : ℕ) : ℕ := (n * u.micros) ⌈/⌉ 1000

/-- The least number of units that lasts `n` jiffies. -/
def SleepUnit.exactUnits (u : SleepUnit) (n : ℕ) : ℕ := (n * 1000) ⌈/⌉ u.micros

/-- The functions of `time.h`. -/
inductive Conversion where
  | secToJiffies
  | usecToJiffies
  | jiffiesToSec
  | jiffiesToUsec
  deriving DecidableEq

namespace Conversion

/-- The code. -/
def run : Conversion → Word → Word
  | secToJiffies => Kalisto.secToJiffies
  | usecToJiffies => Kalisto.usecToJiffies
  | jiffiesToSec => Kalisto.jiffiesToSec
  | jiffiesToUsec => Kalisto.jiffiesToUsec

/-- The exact value. -/
def exact : Conversion → ℕ → ℕ
  | secToJiffies => SleepUnit.sec.exactJiffies
  | usecToJiffies => SleepUnit.usec.exactJiffies
  | jiffiesToSec => SleepUnit.sec.exactUnits
  | jiffiesToUsec => SleepUnit.usec.exactUnits

/-- The product with the rounding term, which the code computes in 32 bits before it divides. -/
def dividend : Conversion → ℕ → ℕ
  | secToJiffies, n => n * 1000
  | usecToJiffies, n => n * 1000 + 999999
  | jiffiesToSec, n => n + 999
  | jiffiesToUsec, n => n * 1000000 + 999

theorem exact_secToJiffies (n : ℕ) : exact secToJiffies n = n * 1000 := by
  simp only [exact, SleepUnit.exactJiffies, SleepUnit.micros, Nat.ceilDiv_eq_add_pred_div]
  omega

theorem exact_usecToJiffies (n : ℕ) : exact usecToJiffies n = (n * 1000 + 999999) / 1000000 := by
  simp only [exact, SleepUnit.exactJiffies, SleepUnit.micros, Nat.ceilDiv_eq_add_pred_div]
  omega

theorem exact_jiffiesToSec (n : ℕ) : exact jiffiesToSec n = (n + 999) / 1000 := by
  simp only [exact, SleepUnit.exactUnits, SleepUnit.micros, Nat.ceilDiv_eq_add_pred_div]
  omega

theorem exact_jiffiesToUsec (n : ℕ) : exact jiffiesToUsec n = n * 1000 := by
  simp only [exact, SleepUnit.exactUnits, SleepUnit.micros, Nat.ceilDiv_eq_add_pred_div]
  omega

/-- **A conversion is exact when its dividend fits in 32 bits, and only then**: what is left of a
dividend that wraps is smaller than the exact value. -/
theorem run_eq_exact_iff (c : Conversion) (n : Word) (hfit : c.exact n.toNat < 2 ^ 32) :
    (c.run n).toNat = c.exact n.toNat ↔ c.dividend n.toNat < 2 ^ 32 := by
  have hn := n.isLt
  cases c with
  | secToJiffies =>
    rw [exact_secToJiffies] at hfit ⊢
    rw [run, secToJiffies_toNat, dividend]
    omega
  | usecToJiffies =>
    rw [exact_usecToJiffies, run, usecToJiffies_toNat, dividend]
    omega
  | jiffiesToSec =>
    rw [exact_jiffiesToSec, run, jiffiesToSec_toNat, dividend]
    omega
  | jiffiesToUsec =>
    rw [exact_jiffiesToUsec] at hfit ⊢
    rw [run, jiffiesToUsec_toNat, dividend]
    omega

end Conversion

/-- **`usec_to_jiffies` never amounts to less than its argument** when its dividend fits, and only then. -/
theorem le_usecToJiffies_iff (n : Word) :
    n.toNat ≤ (usecToJiffies n).toNat * 1000 ↔ n.toNat * 1000 + 999999 < 2 ^ 32 := by
  rw [usecToJiffies_toNat]
  omega

/-! ### The timer of a sleeper -/

namespace Kernel

variable {T C : Type} [DecidableEq T] [DecidableEq C] {k k' : Kernel T C}

omit [DecidableEq C] in
theorem preempt_timeout (k : Kernel T C) : k.preempt.timeout = k.timeout ∧ k.preempt.pc = k.pc := by
  simp only [preempt]
  split
  · split <;> exact ⟨rfl, rfl⟩
  · exact ⟨rfl, rfl⟩

theorem schedule_timeout {now : Word} (h : k.schedule now = .ok k') :
    k'.timeout = k.timeout ∧ k'.pc = k.pc := by
  obtain ⟨⟨link, l⟩, -, h⟩ := Outcome.bind_eq_ok.mp h
  cases link with
  | none =>
    cases h
    exact ⟨rfl, rfl⟩
  | some link =>
    obtain ⟨t, -, h⟩ := Outcome.bind_eq_ok.mp h
    cases h
    exact preempt_timeout _

/-- **`thread_sleep` and `thread_usleep` up to `schedule`**: the timer of the current thread is started with
the converted argument, and the thread is inside the call. -/
theorem threadSleep_timer {u : SleepUnit} {n now : Word} {c : T} (hc : k.current = some c)
    (h : k.threadSleep u n now = .ok k') :
    k'.timeout (.thread c) = u.toJiffies n ∧
      k'.expires = Function.update k.expires (.thread c) (k.jiffies + u.toJiffies n) ∧
      k'.jiffies = k.jiffies ∧ k'.pc c = .sleep u := by
  simp only [threadSleep, hc, LinkList.deref, Outcome.ok_bind] at h
  obtain ⟨k₁, h₁, h⟩ := Outcome.bind_eq_ok.mp h
  obtain ⟨k₂, h₂, h⟩ := Outcome.bind_eq_ok.mp h
  obtain ⟨k₃, h₃, h⟩ := Outcome.bind_eq_ok.mp h
  obtain ⟨l₁, -, h₁⟩ := Outcome.bind_eq_ok.mp h₁
  obtain ⟨l₂, -, h₂⟩ := Outcome.bind_eq_ok.mp h₂
  obtain ⟨l₃, -, h₃⟩ := Outcome.bind_eq_ok.mp h₃
  obtain ⟨hj, he⟩ := schedule_timers h
  obtain ⟨ht, hpc⟩ := schedule_timeout h
  rw [ht, he, hj, hpc]
  cases h₁
  cases h₂
  cases h₃
  simp

end Kernel

open Kernel

/-- **Conversions.**  A conversion whose exact result fits in 32 bits is exact if and only if its dividend
fits; `usec_to_jiffies` amounts to at least its argument if and only if its dividend fits; and so does the
timeout that `thread_usleep` asks for. -/
theorem time_conversions_iff {T C : Type} [DecidableEq T] [DecidableEq C] :
    (∀ (c : Conversion) (n : Word), c.exact n.toNat < 2 ^ 32 →
      ((c.run n).toNat = c.exact n.toNat ↔ c.dividend n.toNat < 2 ^ 32)) ∧
    (∀ n : Word, n.toNat ≤ (usecToJiffies n).toNat * 1000 ↔
      Conversion.usecToJiffies.dividend n.toNat < 2 ^ 32) ∧
    ∀ (k k' : Kernel T C) (c : T) (n now : Word), k.current = some c →
      k.threadSleep .usec n now = .ok k' → (n.toNat ≤ (k'.timeout (.thread c)).toNat * 1000 ↔
        Conversion.usecToJiffies.dividend n.toNat < 2 ^ 32) := by
  refine ⟨fun c n hfit => c.run_eq_exact_iff n hfit, le_usecToJiffies_iff, fun k k' c n now hc h => ?_⟩
  rw [(threadSleep_timer hc h).1]
  exact le_usecToJiffies_iff n

/-- **Dividends that wrap.**  4.3 seconds are no jiffies, the last moment before the counter wraps is in
no second, and 4295 jiffies are 33 microseconds. -/
theorem time_conversions_wrap :
    (usecToJiffies 4293968 = 0 ∧ Conversion.usecToJiffies.exact 4293968 = 4294) ∧
    (jiffiesToSec 0xFFFFFFFF = 0 ∧ Conversion.jiffiesToSec.exact 0xFFFFFFFF = 4294968) ∧
    jiffiesToUsec 4295 = 33 ∧ Conversion.jiffiesToUsec.exact 4295 = 4295000 := by
  refine ⟨⟨by decide, ?_⟩, ⟨by decide, ?_⟩, by decide, ?_⟩
  · rw [Conversion.exact_usecToJiffies]
  · rw [Conversion.exact_jiffiesToSec]
  · rw [Conversion.exact_jiffiesToUsec]

/-- Small arguments: 1500 microseconds are two jiffies, and `thread_usleep` asks for as many. -/
theorem time_conversions_small :
    (usecToJiffies 1500).toNat = Conversion.usecToJiffies.exact 1500 ∧
      1500 ≤ (usecToJiffies 1500).toNat * 1000 ∧
      ∃ k', (ticking 5 0).threadSleep .usec 1500 0 = .ok k' ∧
        1500 ≤ (k'.timeout (.thread 0)).toNat * 1000 := by
  obtain ⟨hexact, hle, harm⟩ := time_conversions_iff (T := ℕ) (C := ℕ)
  have hfit : Conversion.usecToJiffies.exact (1500 : Word).toNat < 2 ^ 32 := by
    rw [Conversion.exact_usecToJiffies]
    decide
  have hdiv : Conversion.usecToJiffies.dividend (1500 : Word).toNat < 2 ^ 32 := by decide
  obtain ⟨k', hrun⟩ : ∃ k', (ticking 5 0).threadSleep .usec 1500 0 = .ok k' := ⟨_, rfl⟩
  exact ⟨(hexact .usecToJiffies 1500 hfit).mpr hdiv, (hle 1500).mpr hdiv, k', hrun,
    (harm (ticking 5 0) k' 0 1500 0 rfl hrun).mpr hdiv⟩

end Kalisto
