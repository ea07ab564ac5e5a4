import Kalisto.Proc.ThreadRuns
import Kalisto.Time.Conversion

/-!
# What `thread_sleep` returns

The return value of `thread_sleep` and `thread_usleep` is the difference of `expires` and `jiffies` at the
moment the sleeper is resumed, converted to the unit of the argument.

* `Stays`, `SleepReturns` — a sleeper while other threads and interrupts run, and its way out of the call;
* `sleep_remaining_iff` — the value is the remaining time when the sleeper is resumed before its timer
  expires, and after that only for delays that the 32-bit arithmetic happens to map to zero.
-/

namespace Kalisto

open LinkList

variable {T C : Type} [DecidableEq T] [DecidableEq C]

/-- The ticks of an act. -/
def Act.ticks : Act T C → ℕ
  | .tick _ _ => 1
  | _ => 0

namespace Kernel

variable {k k' k₁ k₂ : Kernel T C} {a : Act T C} {new : List (Event T C)} {c : T} {u : SleepUnit}

/-! ### The clock during an act -/

/-- Neither a tick nor a start of the timer. -/
def SameClock (k k' : Kernel T C) (x : TimerRef T C) : Prop :=
  k'.jiffies = k.jiffies ∧ k'.expires x = k.expires x

theorem schedule_clock {now : Word} (x : TimerRef T C) (h : k.schedule now = .ok k') : SameClock k k' x :=
  ⟨(schedule_timers h).1, congrFun (schedule_timers h).2 x⟩

theorem threadWakeup_clock {t : T} (x : TimerRef T C) (h : k.threadWakeup t = .ok k') :
    SameClock k k' x :=
  ⟨(threadWakeup_timers h).1, congrFun (threadWakeup_timers h).2 x⟩

theorem threadSuspend_clock {now : Word} (x : TimerRef T C) (h : k.threadSuspend now = .ok k') :
    SameClock k k' x := by
  obtain ⟨c, -, h⟩ := Outcome.bind_eq_ok.mp h
  obtain ⟨k₁, h₁, h⟩ := Outcome.bind_eq_ok.mp h
  obtain ⟨l, -, h₁⟩ := Outcome.bind_eq_ok.mp h₁
  cases h₁
  exact ⟨(schedule_clock x h).1, (schedule_clock x h).2⟩

theorem threadFinish_clock {retval now : Word} (x : TimerRef T C)
    (h : k.threadFinish retval now = .ok k') : SameClock k k' x := by
  obtain ⟨c, -, h⟩ := Outcome.bind_eq_ok.mp h
  obtain ⟨k₁, h₁, h⟩ := Outcome.bind_eq_ok.mp h
  obtain ⟨l, -, h₁⟩ := Outcome.bind_eq_ok.mp h₁
  cases h₁
  cases hj : k.joiner c with
  | some j =>
    simp only [hj] at h
    obtain ⟨k₂, h₂, h⟩ := Outcome.bind_eq_ok.mp h
    exact ⟨(schedule_clock x h).1.trans (threadWakeup_clock x h₂).1,
      (schedule_clock x h).2.trans (threadWakeup_clock x h₂).2⟩
  | none =>
    simp only [hj] at h
    exact ⟨(schedule_clock x h).1, (schedule_clock x h).2⟩

theorem threadJoin_clock {t : T} {now : Word} (x : TimerRef T C)
    (h : k.threadJoin t now = .ok (k', new)) : SameClock k k' x := by
  obtain ⟨c, -, h⟩ := Outcome.bind_eq_ok.mp h
  split at h
  · split at h
    · obtain ⟨k₁, h₁, h⟩ := Outcome.bind_eq_ok.mp h
      cases h
      exact ⟨(threadSuspend_clock x h₁).1, (threadSuspend_clock x h₁).2⟩
    · cases h
      exact ⟨rfl, rfl⟩
  · cases h
    exact ⟨rfl, rfl⟩

theorem threadCreateInsert_clock {t : T} (x : TimerRef T C) (h : k.threadCreateInsert t = .ok k') :
    SameClock k k' x := by
  obtain ⟨l₁, -, h⟩ := Outcome.bind_eq_ok.mp h
  obtain ⟨l₂, -, h⟩ := Outcome.bind_eq_ok.mp h
  cases h
  exact ⟨rfl, rfl⟩

theorem timerSelect_clock {fuel : ℕ} (x : TimerRef T C) (h : k.timerSelect fuel = .ok k') :
    SameClock k k' x := by
  obtain ⟨found, -, h⟩ := Outcome.bind_eq_ok.mp h
  cases found with
  | none =>
    cases h
    exact ⟨rfl, rfl⟩
  | some y =>
    obtain ⟨k₁, h₁, h⟩ := Outcome.bind_eq_ok.mp h
    obtain ⟨l, -, h₁⟩ := Outcome.bind_eq_ok.mp h₁
    cases h₁
    cases hh : k.handler y <;> simp only [hh, Outcome.pure_eq] at h <;> cases h <;> exact ⟨rfl, rfl⟩

/-! ### `timer_destroy` inside a sleep -/

omit [DecidableEq T] [DecidableEq C] in
theorem deref_current (h : LinkList.deref k.current = .ok c) : k.current = some c := by
  cases hk : k.current with
  | none =>
    rw [hk] at h
    cases h
  | some d =>
    rw [hk] at h
    cases h
    rfl

/-- **The loops of `timer_destroy`**: the current thread stays in `thread_yield` while the timer runs,
with what the call is for, or the call returns. -/
theorem timerDestroyFrom_cases {x : TimerRef T C} {r : Option (SleepUnit × Word)} {now : Word}
    {fuel : ℕ} {b : Bool} (hc : k.current = some c)
    (h : timerDestroyFrom x r now fuel b k = .ok (k', new)) :
    (∀ y, SameClock k k' y) ∧
      (new = destroyReturns x r ∨ new = [] ∧ k.running x = true ∧ k'.pc c = .destroy x r) := by
  induction fuel generalizing k b with
  | zero => cases h
  | succ fuel ih =>
    cases b with
    | false =>
      obtain ⟨pending, -, h⟩ := Outcome.bind_eq_ok.mp h
      cases pending with
      | true =>
        obtain ⟨k₁, h₁, h⟩ := Outcome.bind_eq_ok.mp h
        obtain ⟨l, -, h₁⟩ := Outcome.bind_eq_ok.mp h₁
        cases h₁
        exact ih (k := { k with links := l }) hc h
      | false => exact ih hc h
    | true =>
      simp only [timerDestroyFrom, hc, LinkList.deref, Outcome.ok_bind] at h
      split at h
      · -- the timer runs: the thread yields
        obtain ⟨k₁, h₁, h⟩ := Outcome.bind_eq_ok.mp h
        cases h
        refine ⟨fun y => ⟨(schedule_clock y h₁).1, (schedule_clock y h₁).2⟩, Or.inr ⟨rfl, ‹_›, ?_⟩⟩
        rw [(schedule_timeout h₁).2]
        exact Function.update_self ..
      · obtain ⟨pending, -, h⟩ := Outcome.bind_eq_ok.mp h
        cases pending with
        | true => exact ih hc h
        | false =>
          cases h
          exact ⟨fun y => ⟨rfl, rfl⟩, Or.inl rfl⟩

theorem resume_clock {now : Word} {fuel : ℕ} (x : TimerRef T C)
    (h : k.resume now fuel = .ok (k', new)) : SameClock k k' x := by
  obtain ⟨c, hc, h⟩ := Outcome.bind_eq_ok.mp h
  have hcur := deref_current hc
  cases hpc : k.pc c with
  | run =>
    simp only [hpc] at h
    cases h
    exact ⟨rfl, rfl⟩
  | create t =>
    simp only [hpc] at h
    cases h
    exact ⟨rfl, rfl⟩
  | join t =>
    simp only [hpc] at h
    cases h
    exact ⟨rfl, rfl⟩
  | sleep u =>
    simp only [hpc] at h
    exact (timerDestroyFrom_cases hcur h).1 x
  | destroy y r =>
    simp only [hpc] at h
    exact (timerDestroyFrom_cases hcur h).1 x
  | finished =>
    simp only [hpc] at h
    cases h

/-! ### A thread inside a call -/

theorem timerStart_clock {y : TimerRef T C} (h : k.timerStart y = .ok k') (hne : .thread c ≠ y) :
    SameClock k k' (.thread c) := by
  obtain ⟨l, -, h⟩ := Outcome.bind_eq_ok.mp h
  cases h
  exact ⟨rfl, Function.update_of_ne hne ..⟩

theorem timerInitJiffies_clock {y : TimerRef T C} {timeout : Word} {g : Option (Handler T)}
    (h : k.timerInitJiffies y timeout g = .ok k') (hne : .thread c ≠ y) :
    SameClock k k' (.thread c) := by
  obtain ⟨l, -, h⟩ := Outcome.bind_eq_ok.mp h
  cases h
  exact ⟨rfl, Function.update_of_ne hne ..⟩

/-- **The acts while a thread waits inside a call.**  Only the tick counts, and only the thread itself
starts its timer. -/
theorem Elapsed.step {k₀ : Kernel T C} {n : ℕ} (hn : Elapsed (.thread c) k₀ n k) (hadm : k.Admits a)
    (hpc : k.pc c ≠ .run) (h : Outcome.Returns (k.step a) (k', new)) :
    Elapsed (.thread c) k₀ (n + a.ticks) k' := by
  obtain ⟨fuel, h⟩ := h
  have h := h fuel le_rfl
  -- every act but a tick
  have hother : ∀ {k₁}, SameClock k k₁ (.thread c) → Elapsed (.thread c) k₀ n k₁ := fun hs => hn.other hs.1 hs.2
  cases a with
  | createAlloc t =>
    obtain ⟨d, -, h⟩ := Outcome.bind_eq_ok.mp h
    cases h
    exact hother ⟨rfl, rfl⟩
  | createInsert =>
    obtain ⟨d, -, h⟩ := Outcome.bind_eq_ok.mp h
    split at h
    · obtain ⟨k₁, h₁, h⟩ := Outcome.bind_eq_ok.mp h
      cases h
      have hs := threadCreateInsert_clock (.thread c) h₁
      exact hother ⟨hs.1, hs.2⟩
    · cases h
      exact hn
  | yield now =>
    obtain ⟨k₁, h₁, h⟩ := Outcome.bind_eq_ok.mp h
    cases h
    exact hother (schedule_clock _ h₁)
  | suspend now =>
    obtain ⟨k₁, h₁, h⟩ := Outcome.bind_eq_ok.mp h
    cases h
    exact hother (threadSuspend_clock _ h₁)
  | wakeup t =>
    obtain ⟨k₁, h₁, h⟩ := Outcome.bind_eq_ok.mp h
    cases h
    exact hother (threadWakeup_clock _ h₁)
  | sleep u d now =>
    obtain ⟨e, ⟨he, hrun, -⟩, -⟩ := hadm
    have hce : c ≠ e := by
      rintro rfl
      exact hpc hrun
    obtain ⟨k₁, h₁, h⟩ := Outcome.bind_eq_ok.mp h
    cases h
    obtain ⟨-, hexp, hj, -⟩ := threadSleep_timer he h₁
    refine hother ⟨hj, ?_⟩
    rw [hexp]
    exact Function.update_of_ne (by simpa using hce) ..
  | finish retval now =>
    obtain ⟨k₁, h₁, h⟩ := Outcome.bind_eq_ok.mp h
    cases h
    exact hother (threadFinish_clock _ h₁)
  | join t now => exact hother (threadJoin_clock _ h)
  | timerInit d timeout handler =>
    obtain ⟨k₁, h₁, h⟩ := Outcome.bind_eq_ok.mp h
    cases h
    exact hother (timerInitJiffies_clock h₁ (by simp))
  | timerStart d =>
    obtain ⟨k₁, h₁, h⟩ := Outcome.bind_eq_ok.mp h
    cases h
    exact hother (timerStart_clock h₁ (by simp))
  | timerDestroy d now =>
    obtain ⟨⟨e, he, -⟩, -⟩ := hadm
    exact hother ((timerDestroyFrom_cases he h).1 _)
  | timerRelease d m =>
    cases h
    have hne : TimerRef.thread c ≠ .client d := by simp
    exact hother ⟨rfl, Function.update_of_ne hne m.expires k.expires⟩
  | resume now => exact hother (resume_clock _ h)
  | timerSelect =>
    obtain ⟨k₁, h₁, h⟩ := Outcome.bind_eq_ok.mp h
    cases h
    exact hother (timerSelect_clock _ h₁)
  | timerTimeout =>
    simp only [Kernel.step] at h
    split at h
    · obtain ⟨k₁, h₁, h⟩ := Outcome.bind_eq_ok.mp h
      cases h
      have hs := threadWakeup_clock (.thread c) h₁
      exact hother ⟨hs.1, hs.2⟩
    · cases h
      exact hn
  | timerReturn =>
    simp only [Kernel.step] at h
    split at h <;> cases h <;> exact hother ⟨rfl, rfl⟩
  | timerClear =>
    simp only [Kernel.step] at h
    split at h
    · rename_i x hx
      cases h
      cases x <;> exact hother ⟨rfl, rfl⟩
    · cases h
      exact hn
  | timerSuspend now =>
    obtain ⟨k₁, h₁, h⟩ := Outcome.bind_eq_ok.mp h
    cases h
    have hs := threadSuspend_clock (.thread c) h₁
    exact hother ⟨hs.1, hs.2⟩
  | tick timestamp now =>
    obtain ⟨k₁, h₁, h⟩ := Outcome.bind_eq_ok.mp h
    cases h
    exact .tick hn h₁

/-- Other threads and interrupts run, with `n` ticks, and the thread stays at this place of a call. -/
inductive Stays (c : T) (p : Pc T C) (k : Kernel T C) : ℕ → Kernel T C → Prop
  | start : k.pc c = p → Stays c p k 0 k
  | step {n : ℕ} {k₁ k₂ : Kernel T C} {a : Act T C} {new : List (Event T C)} : Stays c p k n k₁ →
      k₁.Admits a → Outcome.Returns (k₁.step a) (k₂, new) → k₂.pc c = p → Stays c p k (n + a.ticks) k₂

theorem Stays.pc {p : Pc T C} {n : ℕ} (h : Stays c p k n k') : k'.pc c = p := by
  cases h with
  | start hpc => exact hpc
  | step _ _ _ hpc => exact hpc

theorem Stays.elapsed {p : Pc T C} {n : ℕ} (h : Stays c p k n k') (hp : p ≠ .run) :
    Elapsed (.thread c) k n k' := by
  induction h with
  | start _ => exact .start
  | step hs hadm hret _ ih =>
    refine ih.step hadm ?_ hret
    rw [hs.pc]
    exact hp

/-- **The end of a sleep.**  The sleeper is the current thread, it is resumed, and the call returns this
value; or it stays in `timer_destroy` and is resumed once more. -/
inductive SleepReturns (c : T) : Kernel T C → Word → Prop
  | now {k k' : Kernel T C} {now r : Word} : k.current = some c →
      Outcome.Returns (k.step (.resume now)) (k', [.destroyed (.thread c), .slept r]) → SleepReturns c k r
  | later {k k₁ k₂ : Kernel T C} {now r : Word} {n : ℕ} : k.current = some c →
      Outcome.Returns (k.step (.resume now)) (k₁, []) → Stays c (k₁.pc c) k₁ n k₂ →
      SleepReturns c k₂ r → SleepReturns c k r

/-- The thread is inside a sleep that returns `v`. -/
inductive SleepsFor (k : Kernel T C) (c : T) (v : Word) : Prop
  | asleep {u : SleepUnit} : k.pc c = .sleep u → u.ofJiffies (k.expires (.thread c) - k.jiffies) = v →
      SleepsFor k c v
  | destroying {u : SleepUnit} {r : Word} : k.pc c = .destroy (.thread c) (some (u, r)) →
      u.ofJiffies r = v → SleepsFor k c v

/-- **One resumption of a sleeper**: the call returns, or it stays in `timer_destroy`. -/
theorem SleepsFor.resume {now v : Word} {fuel : ℕ} (hv : SleepsFor k c v) (hc : k.current = some c)
    (h : k.step (.resume now) fuel = .ok (k', new)) :
    new = [.destroyed (.thread c), .slept v] ∨ new = [] ∧ k.running (.thread c) = true ∧
      ∃ u r, k'.pc c = .destroy (.thread c) (some (u, r)) ∧ u.ofJiffies r = v := by
  simp only [Kernel.step, Kernel.resume, hc, LinkList.deref, Outcome.ok_bind] at h
  obtain ⟨b, u, r, rfl, hrun⟩ : ∃ b u r, u.ofJiffies r = v ∧
      timerDestroyFrom (.thread c) (some (u, r)) now fuel b k = .ok (k', new) := by
    cases hv with
    | asleep hpc hval =>
      simp only [hpc] at h
      exact ⟨false, _, _, hval, h⟩
    | destroying hpc hval =>
      simp only [hpc] at h
      exact ⟨true, _, _, hval, h⟩
  rcases (timerDestroyFrom_cases hc hrun).2 with rfl | ⟨rfl, hbusy, hpc⟩
  · exact Or.inl rfl
  · exact Or.inr ⟨rfl, hbusy, u, r, hpc, rfl⟩

/-- **The value of a sleep** is computed when the sleeper is resumed for the first time. -/
theorem SleepReturns.value {v v' : Word} (h : SleepReturns c k v') (hv : SleepsFor k c v) : v' = v := by
  induction h with
  | now hc hret =>
    obtain ⟨fuel, hret⟩ := hret
    rcases hv.resume hc (hret fuel le_rfl) with hnew | ⟨hnew, -⟩
    · simpa using hnew
    · cases hnew
  | later hc hret hstays _ ih =>
    obtain ⟨fuel, hret⟩ := hret
    rcases hv.resume hc (hret fuel le_rfl) with hnew | ⟨-, -, u, r, hpc, hval⟩
    · cases hnew
    · exact ih (.destroying (hstays.pc.trans hpc) hval)

/-- **In a run** the sleep returns as soon as the timer thread does not hold the timer. -/
theorem SleepsFor.returns {ok : Kernel T C → Act T C → Prop} {evs : List (Event T C)} {now v : Word}
    (hv : SleepsFor k c v) (hok : Harmless ok) (h : Run ok k evs) (ha : ok k (.resume now))
    (hc : k.current = some c) (hidle : k.running (.thread c) = false) : SleepReturns c k v := by
  have hpc : enabled (k.pc c) = false := by
    cases hv with
    | asleep hpc _ =>
      rw [hpc]
      rfl
    | destroying hpc _ =>
      rw [hpc]
      rfl
  have hadm : k.Admits (.resume now) := ⟨c, hc, hpc⟩
  obtain ⟨k', new, hret⟩ := h.returns hok hadm ha
  obtain ⟨fuel, hrun⟩ := id hret
  rcases hv.resume hc (hrun fuel le_rfl) with rfl | ⟨-, hbusy, -⟩
  · exact .now hc hret
  · simp [hidle] at hbusy

/-- **The value of a sleep** that is resumed `n` ticks after the call: the unsigned difference of the
timeout and `n`, converted. -/
theorem Stays.sleepsFor {d now : Word} {n : ℕ} (hc : k.current = some c)
    (hcall : k.threadSleep u d now = .ok k₁) (hn : Stays c (.sleep u) k₁ n k₂) :
    SleepsFor k₂ c (u.ofJiffies (u.toJiffies d - BitVec.ofNat 32 n)) := by
  obtain ⟨-, hexp, hj, -⟩ := threadSleep_timer hc hcall
  obtain ⟨hj', hexp'⟩ := (hn.elapsed (by simp)).counts
  refine .asleep hn.pc ?_
  rw [hexp', hexp, Function.update_self, hj', hj, add_sub_add_left_eq_sub]

end Kernel

/-! ### The remaining time -/

/-- A delay after the expiry that the conversion, of a number that has wrapped, takes to zero. -/
def SleepUnit.Tolerates : SleepUnit → ℕ → Prop
  | sec, late => late % 2 ^ 32 < 1000
  | usec, late => late * 1000000 % 2 ^ 32 < 1000

/-- A negative number in 32 bits, with the rounding term. -/
theorem wrapped_div_eq_zero_iff {p q : ℕ} (h : (p + q) % 2 ^ 32 = 0) :
    (p + 999) % 2 ^ 32 / 1000 = 0 ↔ q % 2 ^ 32 < 1000 := by
  omega

/-- **The conversion of the difference** is the remaining time up to the expiry, and after it for the
delays that are tolerated. -/
theorem SleepUnit.ofJiffies_sub_iff (u : SleepUnit) (d : Word) (n : ℕ)
    (hd : (u.toJiffies d).toNat < 2 ^ 31) :
    (u.ofJiffies (u.toJiffies d - BitVec.ofNat 32 n)).toNat = u.exactUnits ((u.toJiffies d).toNat - n) ↔
      u.Tolerates (n - (u.toJiffies d).toNat) := by
  have hsub : (u.toJiffies d - BitVec.ofNat 32 n).toNat =
      ((u.toJiffies d).toNat + (2 ^ 32 - n % 2 ^ 32)) % 2 ^ 32 := by
    rw [BitVec.toNat_sub, BitVec.toNat_ofNat, Nat.add_comm]
  cases u with
  | sec =>
    have hval := jiffiesToSec_toNat (SleepUnit.sec.toJiffies d - BitVec.ofNat 32 n)
    rw [hsub] at hval
    have hexact := Conversion.exact_jiffiesToSec ((SleepUnit.sec.toJiffies d).toNat - n)
    rw [jiffiesToSec] at hval
    rw [Conversion.exact] at hexact
    rw [hval, hexact, Tolerates]
    omega
  | usec =>
    have hval := jiffiesToUsec_toNat (SleepUnit.usec.toJiffies d - BitVec.ofNat 32 n)
    rw [hsub] at hval
    have hexact := Conversion.exact_jiffiesToUsec ((SleepUnit.usec.toJiffies d).toNat - n)
    have hbound : (SleepUnit.usec.toJiffies d).toNat ≤ 4294 := by
      have := usecToJiffies_toNat d
      rw [usecToJiffies] at this
      omega
    rw [jiffiesToUsec] at hval
    rw [Conversion.exact] at hexact
    rw [hval, hexact, Tolerates]
    generalize (SleepUnit.usec.toJiffies d).toNat = t at hbound ⊢
    rcases Nat.le_total n t with hle | hlt
    · omega
    · -- the difference and the delay add up to a multiple of `2 ^ 32`, and so do their products
      obtain ⟨late, rfl⟩ := Nat.exists_eq_add_of_le hlt
      have hsum : ((t + (2 ^ 32 - (t + late) % 2 ^ 32)) % 2 ^ 32 + late) % 2 ^ 32 = 0 := by omega
      generalize (t + (2 ^ 32 - (t + late) % 2 ^ 32)) % 2 ^ 32 = x at hsum ⊢
      have hprod : (x * 1000000 + late * 1000000) % 2 ^ 32 = 0 := by
        rw [← Nat.add_mul, Nat.mul_mod, hsum, Nat.zero_mul, Nat.zero_mod]
      rw [Nat.add_sub_cancel_left, Nat.sub_eq_zero_of_le hlt, Nat.zero_mul]
      exact wrapped_div_eq_zero_iff hprod

namespace Kernel

variable {k k₁ k₂ : Kernel T C} {c : T} {u : SleepUnit}

/-- **Remaining time.**  The current thread calls `thread_sleep` or `thread_usleep` with a timeout below
`2 ^ 31` ticks, and is switched to again `n` ticks later, in any order of acts.  In a run the call returns
when the timer thread does not hold the timer; and the value it returns is the remaining time in the unit
of the argument, rounded up, if and only if `n` is at most the timeout or the delay after it is
tolerated. -/
theorem sleep_remaining_iff {d now : Word} {n : ℕ} (hc : k.current = some c)
    (hcall : k.threadSleep u d now = .ok k₁) (hd : (u.toJiffies d).toNat < 2 ^ 31)
    (hn : Stays c (.sleep u) k₁ n k₂) (hcur : k₂.current = some c) :
    (∀ (ok : Kernel T C → Act T C → Prop) evs now', Harmless ok → Run ok k₂ evs →
      ok k₂ (.resume now') → k₂.running (.thread c) = false → ∃ v, SleepReturns c k₂ v) ∧
    ∀ v, SleepReturns c k₂ v → (v.toNat = u.exactUnits ((u.toJiffies d).toNat - n) ↔
      u.Tolerates (n - (u.toJiffies d).toNat)) := by
  have hv := hn.sleepsFor hc hcall
  refine ⟨fun ok evs now' hok hrun ha hidle => ⟨_, hv.returns hok hrun ha hcur hidle⟩, fun v hret => ?_⟩
  rw [hret.value hv]
  exact u.ofJiffies_sub_iff d n hd

/-- The thread stays where it is while acts are played. -/
theorem Stays.play {p : Pc T C} {n : ℕ} {as : List (Act T C)} (h : Stays c p k n k₁)
    (hp : Plays (fun k a => (k.after a).pc c = p) k₁ as) :
    Stays c p k (n + (as.map Act.ticks).sum) (k₁.play as) := by
  induction as generalizing k₁ n with
  | nil => exact h
  | cons a as ih =>
    obtain ⟨hadm, hpc, ⟨new, hret⟩, hrest⟩ := hp
    rw [List.map_cons, List.sum_cons, ← Nat.add_assoc]
    exact ih (h.step hadm hret hpc) hrest

/-- Two ticks; the timer thread wakes up the main thread and has nothing more to do. -/
def timesOut : List (Act ℕ ℕ) :=
  [.tick 0 0, .tick 0 0, .timerSelect, .timerTimeout, .timerClear, .timerSelect, .timerClear,
    .timerSuspend 0, .yield 0]

theorem timesOut_plays : Plays (fun k a => (k.after a).pc 2 = .sleep .usec) (sleeping .usec 1000)
    timesOut :=
  ⟨⟨0, rfl, rfl⟩, rfl, ⟨[], Outcome.returns_of_add 2 fun _ => rfl⟩,
    ⟨0, rfl, rfl⟩, rfl, ⟨[], Outcome.returns_of_add 2 fun _ => rfl⟩,
    ⟨0, rfl, rfl, rfl, rfl⟩, rfl, ⟨[], Outcome.returns_of_add 2 fun _ => rfl⟩,
    ⟨.thread 2, 2, 0, rfl, rfl, rfl, rfl⟩, rfl, ⟨[], 0, fun _ _ => rfl⟩,
    ⟨some (.thread 2), 0, rfl, rfl, rfl, rfl⟩, rfl, ⟨[], 0, fun _ _ => rfl⟩,
    ⟨0, rfl, rfl, rfl, rfl⟩, rfl, ⟨[], Outcome.returns_of_add 2 fun _ => rfl⟩,
    ⟨none, 0, rfl, rfl, rfl, rfl⟩, rfl, ⟨[], 0, fun _ _ => rfl⟩,
    ⟨0, rfl, rfl, rfl, rfl⟩, rfl, ⟨[], 0, fun _ _ => rfl⟩,
    ⟨1, .of_ne rfl rfl (by decide)⟩, rfl, ⟨[], 0, fun _ _ => rfl⟩, trivial⟩

/-- **A sleep that times out.**  `thread_usleep (1000)` is a timeout of one tick; after two ticks the timer
thread wakes up the thread, which returns 4293968 microseconds. -/
theorem sleep_remaining_late : ∃ k₂, booted.threadSleep .usec 1000 0 = .ok (sleeping .usec 1000) ∧
    (SleepUnit.usec.toJiffies 1000).toNat = 1 ∧ Stays 2 (.sleep .usec) (sleeping .usec 1000) 2 k₂ ∧
    SleepReturns 2 k₂ 4293968 ∧ SleepUnit.usec.exactUnits (1 - 2) = 0 := by
  have hstays := (Stays.start (p := .sleep .usec) rfl).play timesOut_plays
  have hexact : SleepUnit.usec.exactUnits (1 - 2) = 0 := Conversion.exact_jiffiesToUsec 0
  refine ⟨(sleeping .usec 1000).play timesOut, rfl, by decide, hstays, ?_, hexact⟩
  obtain ⟨k', hk'⟩ : ∃ k', ∀ n, ((sleeping .usec 1000).play timesOut).step (.resume 0) (n + 4) =
      .ok (k', [.destroyed (.thread 2), .slept 4293968]) := ⟨_, fun _ => rfl⟩
  exact .now rfl (Outcome.returns_of_add 4 hk')

/-- **A sleep that is interrupted.**  `thread_sleep (1)` returns at once, with one second left. -/
theorem sleep_remaining_early : ∃ k₂ v, Stays 2 (.sleep .sec) (sleeping .sec 1) 0 k₂ ∧
    SleepReturns 2 k₂ v ∧ v.toNat = SleepUnit.sec.exactUnits 1000 := by
  have hplays : Plays (fun k a => (k.after a).pc 2 = .sleep .sec) (sleeping .sec 1) wokenUp :=
    wokenUp_plays.mono fun _ _ h => h.2
  have hstays := (Stays.start (p := .sleep .sec) rfl).play hplays
  obtain ⟨evs, hrun⟩ := sleeping_run .sec 1
  obtain ⟨evs', hrun'⟩ := hrun.play (wokenUp_plays.mono fun _ _ h => h.1)
  obtain ⟨hret, hval⟩ := sleep_remaining_iff (k := booted) (c := 2) (u := .sec) (d := 1) rfl rfl (by decide)
    hstays rfl
  obtain ⟨v, hv⟩ := hret NoStray evs' 0 harmless_noStray hrun' (fun _ _ => nofun) rfl
  have htolerated : SleepUnit.sec.Tolerates (0 - 1000) := by
    rw [SleepUnit.Tolerates]
    decide
  exact ⟨_, v, hstays, hv, (hval v hv).mpr htolerated⟩

end Kernel

end Kalisto
