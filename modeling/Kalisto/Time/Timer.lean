import Kalisto.Proc.ThreadSteps
import Kalisto.Sched.RoundRobin

/-!
# Expired timers

The test `timer->expires < jiffies` and the loop of `timer_thread_func` that it drives.

* `timer_expiry_iff` — after `timer_start` and some ticks, the test says what it should exactly when
  the sum stored by `timer_start` and the counter have wrapped together;
* `timer_pass` — one pass of the `do`-`while` loop ends, it calls the handlers of the timers that were
  expired at its start, in the order of the list, and it leaves the others with the restarted ones
  behind them.
-/

namespace Kalisto

open LinkList

variable {T C : Type} [DecidableEq T] [DecidableEq C]

namespace Kernel

/-! ### The test -/

/-- `timer->expires < jiffies`, the test of `timers_run` and of `timer_thread_func`. -/
def isExpired (k : Kernel T C) (x : TimerRef T C) : Bool := decide (k.expires x < k.jiffies)

/-- The links hold these timers, in this order. -/
def TimersList (k : Kernel T C) (ts : List (TimerRef T C)) : Prop :=
  k.links.Ring .timersList (ts.map .timer)

variable {k k' : Kernel T C} {ts : List (TimerRef T C)} {x : TimerRef T C} {fuel : ℕ}

omit [DecidableEq T] [DecidableEq C] in
theorem TimersList.nodup (h : k.TimersList ts) : ts.Nodup :=
  (List.nodup_cons.mp (Links.Ring.nodup h)).2.of_map _

omit [DecidableEq T] [DecidableEq C] in
/-- A timer is in the list once. -/
theorem TimersList.not_mem {ys : List (TimerRef T C)} (h : k.TimersList (ts ++ x :: ys)) :
    x ∉ ts ++ ys :=
  (List.nodup_cons.mp (List.nodup_middle.mp h.nodup)).1

omit [DecidableEq T] [DecidableEq C] in
/-- **The search** of both functions returns the first timer that passes the test. -/
theorem TimersList.expired (h : k.TimersList ts) (hfuel : ts.length < fuel) :
    k.expired fuel = .ok (ts.find? k.isExpired) := k.expiredFrom_seg h.seg hfuel

/-! ### Ticks -/

omit [DecidableEq C] in
theorem preempt_timers (k : Kernel T C) :
    k.preempt.jiffies = k.jiffies ∧ k.preempt.expires = k.expires := by
  simp only [preempt]
  split
  · split <;> exact ⟨rfl, rfl⟩
  · exact ⟨rfl, rfl⟩

theorem schedule_timers {now : Word} (h : k.schedule now = .ok k') :
    k'.jiffies = k.jiffies ∧ k'.expires = k.expires := by
  obtain ⟨⟨link, l⟩, -, h⟩ := Outcome.bind_eq_ok.mp h
  cases link with
  | none =>
    cases h
    exact ⟨rfl, rfl⟩
  | some link =>
    obtain ⟨t, -, h⟩ := Outcome.bind_eq_ok.mp h
    cases h
    exact preempt_timers _

theorem threadWakeup_timers {t : T} (h : k.threadWakeup t = .ok k') :
    k'.jiffies = k.jiffies ∧ k'.expires = k.expires := by
  simp only [threadWakeup] at h
  split at h
  · obtain ⟨l, -, h⟩ := Outcome.bind_eq_ok.mp h
    cases h
    exact ⟨rfl, rfl⟩
  · cases h
    exact ⟨rfl, rfl⟩

/-- **`sched_timer`** counts one tick and leaves the timers. -/
theorem schedTimer_timers {timestamp now : Word} (h : k.schedTimer timestamp now fuel = .ok k') :
    k'.jiffies = k.jiffies + 1 ∧ k'.expires = k.expires := by
  obtain ⟨k₁, h₁, h⟩ := Outcome.bind_eq_ok.mp h
  obtain ⟨c, -, h⟩ := Outcome.bind_eq_ok.mp h
  have hrun : k₁.jiffies = k.jiffies + 1 ∧ k₁.expires = k.expires := by
    obtain ⟨found, -, h₁⟩ := Outcome.bind_eq_ok.mp h₁
    cases found with
    | none =>
      cases h₁
      exact ⟨rfl, rfl⟩
    | some x =>
      obtain ⟨t, -, h₁⟩ := Outcome.bind_eq_ok.mp h₁
      exact threadWakeup_timers h₁
  split at h
  · obtain ⟨hj, he⟩ := schedule_timers h
    exact ⟨hj.trans hrun.1, he.trans hrun.2⟩
  · cases h
    exact hrun

/-- **Time passes**: `n` ticks, and between them code that neither counts ticks nor stores into
`expires` of the timer. -/
inductive Elapsed (x : TimerRef T C) (k : Kernel T C) : ℕ → Kernel T C → Prop
  | start : Elapsed x k 0 k
  | other {n : ℕ} {k₁ k₂ : Kernel T C} : Elapsed x k n k₁ → k₂.jiffies = k₁.jiffies →
      k₂.expires x = k₁.expires x → Elapsed x k n k₂
  | tick {n fuel : ℕ} {k₁ k₂ : Kernel T C} {timestamp now : Word} : Elapsed x k n k₁ →
      k₁.schedTimer timestamp now fuel = .ok k₂ → Elapsed x k (n + 1) k₂

theorem Elapsed.counts {n : ℕ} (h : Elapsed x k n k') :
    k'.jiffies = k.jiffies + BitVec.ofNat 32 n ∧ k'.expires x = k.expires x := by
  induction h with
  | start => simp
  | other _ hj he ih => exact ⟨hj.trans ih.1, he.trans ih.2⟩
  | tick _ hrun ih =>
    obtain ⟨hj, he⟩ := schedTimer_timers hrun
    refine ⟨?_, (congrFun he x).trans ih.2⟩
    rw [hj, ih.1, BitVec.add_assoc]
    congr 1
    apply BitVec.eq_of_toNat_eq
    simp

/-- `timer_start` stores the sum of the counter and the timeout. -/
theorem timerStart_expires (h : k.timerStart x = .ok k') :
    k'.jiffies = k.jiffies ∧ k'.expires x = k.jiffies + k.timeout x := by
  obtain ⟨l, -, h⟩ := Outcome.bind_eq_ok.mp h
  cases h
  exact ⟨rfl, Function.update_self x _ _⟩

/-- **Expiry.**  `n` ticks after `timer_start` with a timeout of `d`, the search of the timers finds
the first one that passes the test, and the test says whether more than `d` ticks have passed exactly
when the end of the timeout and the present are on the same side of a wrap of the counter. -/
theorem timer_expiry_iff {k₁ k₂ : Kernel T C} {n : ℕ} (hstart : k.timerStart x = .ok k₁)
    (hn : Elapsed x k₁ n k₂) (hd : (k.timeout x).toNat < 2 ^ 31) (hlt : n < 2 ^ 31) :
    (∀ ts fuel, k₂.TimersList ts → ts.length < fuel →
      k₂.expired fuel = .ok (ts.find? k₂.isExpired)) ∧
    ((k₂.isExpired x = true ↔ (k.timeout x).toNat < n) ↔
      (k.jiffies.toNat + (k.timeout x).toNat < 2 ^ 32 ↔ k.jiffies.toNat + n < 2 ^ 32)) := by
  refine ⟨fun ts fuel h hfuel => h.expired hfuel, ?_⟩
  obtain ⟨hj, he⟩ := timerStart_expires hstart
  obtain ⟨hj', he'⟩ := hn.counts
  have hjiffies : k₂.jiffies.toNat = (k.jiffies.toNat + n) % 2 ^ 32 := by
    rw [hj', hj, BitVec.toNat_add, BitVec.toNat_ofNat]
    omega
  have hexpires : (k₂.expires x).toNat = (k.jiffies.toNat + (k.timeout x).toNat) % 2 ^ 32 := by
    rw [he', he, BitVec.toNat_add]
  have hbound := k.jiffies.isLt
  rw [isExpired, decide_eq_true_eq, BitVec.lt_def, hjiffies, hexpires]
  omega

/-- The state of `twoLists` with a thread, and a value of the tick counter. -/
def ticking (jiffies timeout : Word) : Kernel ℕ ℕ :=
  { twoLists with
    current := some 0
    timerThread := some 0
    jiffies := jiffies
    timeout := fun _ => timeout }

/-- **The wrap of the counter.**  At `0xFFFFFFFF` a timer with a timeout of 1 is expired at once, and one
with a timeout of 0 is not expired after the next tick. -/
theorem timer_expiry_wraps :
    (∃ k, (ticking 0xFFFFFFFF 1).timerStart (.client 0) = .ok k ∧ Elapsed (.client 0) k 0 k ∧
      k.isExpired (.client 0) = true) ∧
    ∃ k k', (ticking 0xFFFFFFFF 0).timerStart (.client 0) = .ok k ∧ Elapsed (.client 0) k 1 k' ∧
      k'.isExpired (.client 0) = false := by
  refine ⟨⟨_, rfl, .start, rfl⟩, ?_⟩
  have hrun : ∃ k k', (ticking 0xFFFFFFFF 0).timerStart (.client 0) = .ok k ∧
      k.schedTimer 0 0 2 = .ok k' ∧ k'.isExpired (.client 0) = false := ⟨_, _, rfl, rfl, rfl⟩
  obtain ⟨k, k', hstart, htick, hexp⟩ := hrun
  exact ⟨k, k', hstart, .tick .start htick, hexp⟩

/-- A timer with a timeout of 0 is expired after the next tick, from 5 on. -/
theorem timer_expiry_tick :
    ∃ k k', (ticking 5 0).timerStart (.client 0) = .ok k ∧ Elapsed (.client 0) k 1 k' ∧
      k'.isExpired (.client 0) = true := by
  have hrun : ∃ k k', (ticking 5 0).timerStart (.client 0) = .ok k ∧
      k.schedTimer 0 0 2 = .ok k' := ⟨_, _, rfl, rfl⟩
  obtain ⟨k, k', hstart, htick⟩ := hrun
  have hn : Elapsed (.client 0) k 1 k' := .tick .start htick
  have hiff := (timer_expiry_iff hstart hn (by decide) (by decide)).2.mpr (by decide)
  exact ⟨k, k', hstart, hn, hiff.mpr (by decide)⟩

/-! ### The list of timers in one pass -/

omit [DecidableEq T] [DecidableEq C] in
/-- The links hold one list of timers. -/
theorem TimersList.unique {ts' : List (TimerRef T C)} (h : k.TimersList ts) (h' : k.TimersList ts') :
    ts = ts' := by
  have hmap := Links.Ring.unique h h'
  exact List.map_injective_iff.mpr (fun _ _ => LinkRef.timer.inj) hmap

/-- **`timer_remove`** of a timer of the list. -/
theorem timerRemove_list {ys : List (TimerRef T C)} (h : k.TimersList (ts ++ x :: ys)) :
    ∃ l, k.timerRemove x = .ok { k with links := l } ∧
      ({ k with links := l } : Kernel T C).TimersList (ts ++ ys) := by
  have hout := h.not_mem
  rw [TimersList, List.map_append, List.map_cons] at h
  obtain ⟨p, -, n, -, -, -, hp, hn, hrun⟩ := listRemove_apply h
  refine ⟨_, by rw [timerRemove, hrun]; rfl, ?_⟩
  rw [TimersList, List.map_append]
  refine (h.unlink hp hn).congr fun y hy => ?_
  have hne : y ≠ .timer x := by
    rintro rfl
    rw [← List.map_append] at hy
    obtain hy | hy := List.mem_cons.mp hy
    · cases hy
    · obtain ⟨z, hz, heq⟩ := List.mem_map.mp hy
      cases heq
      exact hout hz
  simp [removed, hne]

/-- **`timer_start`** of a timer that is not in the list. -/
theorem timerStart_list (h : k.TimersList ts) (hx : x ∉ ts) :
    ∃ k', k.timerStart x = .ok k' ∧ k'.TimersList (ts ++ [x]) ∧ k'.timeout = k.timeout ∧
      k'.expires = Function.update k.expires x (k.jiffies + k.timeout x) ∧
      k'.handler = k.handler ∧ k'.starts = Function.update k.starts x (k.starts x + 1) ∧
      k'.jiffies = k.jiffies := by
  have hout : LinkRef.timer x ∉ LinkRef.timersList :: ts.map LinkRef.timer := by simpa using hx
  obtain ⟨p, -, hp, hrun⟩ := listAppend_apply h hout
  have hring : k.links.pushBack .timersList p (.timer x) |>.Ring .timersList ((ts ++ [x]).map .timer) := by
    rw [List.map_append]
    exact h.pushBack hp hout
  rw [timerStart, hrun]
  exact ⟨_, rfl, hring, rfl, rfl, rfl, rfl, rfl⟩

/-! ### One pass of the loop -/

/-- **The `do`-`while` loop of `timer_thread_func`**, with `call` for the handlers: the state it leaves
and the timers whose handlers it called, in this order. -/
def timerPass (call : TimerRef T C → Handler T → Kernel T C → Outcome Fault (Kernel T C)) (fuel : ℕ) :
    ℕ → Kernel T C → Outcome Fault (Kernel T C × List (TimerRef T C))
  | 0, _ => .timeout
  | n + 1, k => do
    let k ← k.timerSelect fuel
    match k.loop with
    | .handler x h => do
      let k ← call x h k
      let (k, calls) ← timerPass call fuel n (k.timerClear (some x))
      return (k, x :: calls)
    | .clear (some x) => timerPass call fuel n (k.timerClear (some x))
    | _ => return (k.timerClear none, [])

/-- Nothing is done to timers. -/
structure SameTimers (k k' : Kernel T C) : Prop where
  list : ∀ ts, k.TimersList ts → k'.TimersList ts
  timeout : k'.timeout = k.timeout
  expires : k'.expires = k.expires
  handler : k'.handler = k.handler
  starts : k'.starts = k.starts
  jiffies : k'.jiffies = k.jiffies

omit [DecidableEq T] [DecidableEq C] in
theorem SameTimers.refl (k : Kernel T C) : SameTimers k k := ⟨fun _ h => h, rfl, rfl, rfl, rfl, rfl⟩

/-- **What a handler of the timer `x` may do**: nothing to timers, or restart `x`. -/
inductive OwnTimer (x : TimerRef T C) (k k' : Kernel T C) : Prop
  | leaves : SameTimers k k' → OwnTimer x k k'
  | restarts {k₁ k₂ : Kernel T C} : SameTimers k k₁ → k₁.timerStart x = .ok k₂ → SameTimers k₂ k' →
      OwnTimer x k k'

/-- The handlers rely on `P`, which the sections of the loop keep, and they return. -/
structure Handlers (P : Kernel T C → Prop)
    (call : TimerRef T C → Handler T → Kernel T C → Outcome Fault (Kernel T C)) : Prop where
  select : ∀ k k' ts fuel, P k → k.TimersList ts → ts.length < fuel →
    k.timerSelect fuel = .ok k' → P k'
  clear : ∀ k x, P k → k.loop = .clear (some x) → P (k.timerClear (some x))
  call : ∀ k x h, P k → k.loop = .handler x h →
    ∃ k', call x h k = .ok k' ∧ P (k'.timerClear (some x)) ∧ OwnTimer x k k'

variable {P : Kernel T C → Prop}
  {call : TimerRef T C → Handler T → Kernel T C → Outcome Fault (Kernel T C)}

/-- **The first section** with no expired timer. -/
theorem timerSelect_none (h : k.TimersList ts) (hfuel : ts.length < fuel)
    (hnone : ts.find? k.isExpired = none) :
    k.timerSelect fuel = .ok { k with loop := .clear none } := by
  rw [timerSelect, h.expired hfuel, hnone]
  rfl

/-- **The first section** takes the first expired timer from the list. -/
theorem timerSelect_some {ys : List (TimerRef T C)} (h : k.TimersList (ts ++ x :: ys))
    (hfirst : (ts ++ x :: ys).find? k.isExpired = some x) :
    ∃ k₁, (∀ fuel, (ts ++ x :: ys).length < fuel → k.timerSelect fuel = .ok k₁) ∧ k₁.TimersList (ts ++ ys) ∧ k₁.timeout = k.timeout ∧
      k₁.expires = k.expires ∧ k₁.handler = k.handler ∧ k₁.starts = k.starts ∧
      k₁.jiffies = k.jiffies ∧
      k₁.loop = match k.handler x with
        | some g => .handler x g
        | none => .clear (some x) := by
  obtain ⟨l, hrun, hl⟩ := timerRemove_list h
  cases hg : k.handler x with
  | some g =>
    refine ⟨{ k with
      links := l
      running := Function.update k.running x true
      loop := .handler x g
      invoked := (x, k.starts x) :: k.invoked }, fun fuel hfuel => ?_, hl, rfl, rfl, rfl, rfl, rfl, rfl⟩
    simp only [timerSelect, h.expired hfuel, hfirst, Outcome.ok_bind, hrun, hg, Outcome.pure_eq]
  | none =>
    refine ⟨{ k with
      links := l
      running := Function.update k.running x true
      loop := .clear (some x) }, fun fuel hfuel => ?_, hl, rfl, rfl, rfl, rfl, rfl, rfl⟩
    simp only [timerSelect, h.expired hfuel, hfirst, Outcome.ok_bind, hrun, hg, Outcome.pure_eq]

/-- What an iteration leaves of the timer `x` that it took: it is out of the list, or its handler has put
it at the end. -/
structure Iterated (k k' : Kernel T C) (ts : List (TimerRef T C)) (x : TimerRef T C) : Prop where
  timeout : k'.timeout = k.timeout
  handler : k'.handler = k.handler
  jiffies : k'.jiffies = k.jiffies
  other : ∀ y, y ≠ x → k'.starts y = k.starts y ∧ k'.expires y = k.expires y
  own : k'.TimersList ts ∧ k'.starts x = k.starts x ∨
    (k.handler x).isSome = true ∧ k'.TimersList (ts ++ [x]) ∧ k'.starts x = k.starts x + 1 ∧
      k'.expires x = k.jiffies + k.timeout x

/-- The handler of the timer that was taken. -/
theorem OwnTimer.iterated {k₁ k₂ : Kernel T C} (ho : OwnTimer x k₁ k₂) (h : k₁.TimersList ts)
    (hx : x ∉ ts) (hsome : (k₁.handler x).isSome = true) : Iterated k₁ k₂ ts x := by
  cases ho with
  | leaves hs =>
    exact ⟨hs.timeout, hs.handler, hs.jiffies, fun y _ => ⟨by rw [hs.starts], by rw [hs.expires]⟩,
      Or.inl ⟨hs.list ts h, by rw [hs.starts]⟩⟩
  | restarts hs hrun hs' =>
    obtain ⟨k₃, hstart, hl, htimeout, hexpires, hhandler, hstarts, hjiffies⟩ :=
      timerStart_list (hs.list ts h) hx
    cases hrun.symm.trans hstart
    refine ⟨hs'.timeout.trans (htimeout.trans hs.timeout), hs'.handler.trans (hhandler.trans hs.handler),
      hs'.jiffies.trans (hjiffies.trans hs.jiffies), fun y hy => ⟨?_, ?_⟩,
      Or.inr ⟨hsome, hs'.list _ hl, ?_, ?_⟩⟩
    · rw [hs'.starts, hstarts, Function.update_of_ne hy, hs.starts]
    · rw [hs'.expires, hexpires, Function.update_of_ne hy, hs.expires]
    · rw [hs'.starts, hstarts, Function.update_self, hs.starts]
    · rw [hs'.expires, hexpires, Function.update_self, hs.jiffies, hs.timeout]

/-- **One iteration** with an expired timer. -/
theorem Handlers.iteration (hp : Handlers P call) (hP : P k) {ys : List (TimerRef T C)}
    (h : k.TimersList (ts ++ x :: ys)) (hfirst : (ts ++ x :: ys).find? k.isExpired = some x) :
    ∃ k', P k' ∧ Iterated k k' (ts ++ ys) x ∧ ∀ fuel n, (ts ++ x :: ys).length < fuel →
      k.timerPass call fuel (n + 1) = do
        let (k', calls) ← k'.timerPass call fuel n
        return (k', if (k.handler x).isSome then x :: calls else calls) := by
  obtain ⟨k₁, hsel, hl, htimeout, hexpires, hhandler, hstarts, hjiffies, hloop⟩ :=
    timerSelect_some h hfirst
  have hP₁ := hp.select k k₁ _ _ hP h (Nat.lt_succ_self _) (hsel _ (Nat.lt_succ_self _))
  have hx : x ∉ ts ++ ys := h.not_mem
  cases hg : k.handler x with
  | some g =>
    rw [hg] at hloop
    obtain ⟨k₂, hcall, hP₂, ho⟩ := hp.call k₁ x g hP₁ hloop
    have hit := ho.iterated hl hx (by rw [hhandler, hg]; rfl)
    refine ⟨k₂.timerClear (some x), hP₂, ?_, fun fuel n hfuel => ?_⟩
    · refine ⟨hit.timeout.trans htimeout, hit.handler.trans hhandler, hit.jiffies.trans hjiffies,
        fun y hy => ?_, ?_⟩
      · exact ⟨(hit.other y hy).1.trans (by rw [hstarts]), (hit.other y hy).2.trans (by rw [hexpires])⟩
      · have hown := hit.own
        rw [hhandler, hstarts, hjiffies, htimeout] at hown
        exact hown
    · simp only [timerPass, hsel fuel hfuel, Outcome.ok_bind, hloop, hcall]
      rfl
  | none =>
    rw [hg] at hloop
    refine ⟨k₁.timerClear (some x), hp.clear k₁ x hP₁ hloop, ?_, fun fuel n hfuel => ?_⟩
    · exact ⟨htimeout, hhandler, hjiffies, fun y _ => ⟨congrFun hstarts y, congrFun hexpires y⟩,
        Or.inl ⟨hl, congrFun hstarts x⟩⟩
    · simp only [timerPass, hsel fuel hfuel, Outcome.ok_bind, hloop]
      cases timerPass call fuel n (k₁.timerClear (some x)) <;> rfl

omit [DecidableEq T] [DecidableEq C] in
/-- **The list after an iteration.**  It has the other timers, and behind them the one that was taken if
its handler has restarted it, with a timeout that is not over: no timer has become expired. -/
theorem Iterated.rest {k' : Kernel T C} (hit : Iterated k k' ts x) (hx : x ∉ ts)
    (hwrap : k.jiffies.toNat + (k.timeout x).toNat < 2 ^ 32) :
    ∃ xs, k'.TimersList (ts ++ xs) ∧ (xs = [] ∧ k'.starts x = k.starts x ∨
        xs = [x] ∧ (k.handler x).isSome = true ∧ k'.starts x ≠ k.starts x) ∧
      (ts ++ xs).filter k'.isExpired = ts.filter k.isExpired ∧
      (ts ++ xs).filter (fun y => !k'.isExpired y) = ts.filter (fun y => !k.isExpired y) ++ xs := by
  have heq : ∀ y ∈ ts, k'.isExpired y = k.isExpired y := fun y hy => by
    rw [isExpired, isExpired, hit.jiffies, (hit.other y (ne_of_mem_of_not_mem hy hx)).2]
  have hexpired : ts.filter k'.isExpired = ts.filter k.isExpired := List.filter_congr heq
  have hothers : ts.filter (fun y => !k'.isExpired y) = ts.filter (fun y => !k.isExpired y) :=
    List.filter_congr fun y hy => by rw [heq y hy]
  rcases hit.own with ⟨hl, hst⟩ | ⟨hsome, hl, hst, hexp⟩
  · exact ⟨[], by simpa using hl, Or.inl ⟨rfl, hst⟩, by simpa using hexpired, by simpa using hothers⟩
  · have hnot : k'.isExpired x = false := by
      rw [isExpired, hexp, hit.jiffies, decide_eq_false_iff_not, BitVec.lt_def, BitVec.toNat_add]
      omega
    refine ⟨[x], hl, Or.inr ⟨rfl, hsome, by omega⟩, ?_, ?_⟩
    · simp [List.filter_append, hnot, hexpired]
    · simp [List.filter_append, hnot, hothers]

/-- **The last iteration.**  Without an expired timer the pass is over. -/
theorem timerPass_done (h : k.TimersList ts) (hnil : ts.filter k.isExpired = []) {fuel n : ℕ}
    (hfuel : ts.length < fuel) (hn : 0 < n) : k.timerPass call fuel n =
      .ok (({ k with loop := .clear none } : Kernel T C).timerClear none, []) := by
  have hnone : ts.find? k.isExpired = none := List.find?_eq_none.mpr fun x hx => by
    simpa using List.filter_eq_nil_iff.mp hnil x hx
  obtain ⟨n, rfl⟩ : ∃ i, n = i + 1 := ⟨n - 1, by omega⟩
  rw [timerPass, timerSelect_none h hfuel hnone]
  rfl

omit [DecidableEq T] [DecidableEq C] in
/-- **The first expired timer**, and what the list is without it. -/
theorem TimersList.first {m : ℕ} (h : k.TimersList ts)
    (hm : (ts.filter k.isExpired).length = m + 1) :
    ∃ x as bs, ts = as ++ x :: bs ∧ ts.find? k.isExpired = some x ∧ x ∉ as ++ bs ∧
      ts.filter k.isExpired = x :: (as ++ bs).filter k.isExpired ∧
      ts.filter (fun y => !k.isExpired y) = (as ++ bs).filter fun y => !k.isExpired y := by
  obtain ⟨x, hfirst⟩ : ∃ x, ts.find? k.isExpired = some x := by
    refine Option.ne_none_iff_exists'.mp fun hnone => ?_
    rw [List.filter_eq_nil_iff.mpr (List.find?_eq_none.mp hnone)] at hm
    cases hm
  obtain ⟨hx, as, bs, rfl, has⟩ := List.find?_eq_some_iff_append.mp hfirst
  have has' : as.filter k.isExpired = [] := List.filter_eq_nil_iff.mpr fun y hy => by
    simpa using has y hy
  refine ⟨x, as, bs, rfl, hfirst, h.not_mem, ?_, ?_⟩
  · simp [List.filter_append, has', hx]
  · simp [List.filter_append, hx]

/-- **The whole pass**, by induction on the number of expired timers. -/
theorem Handlers.pass (hp : Handlers P call) (m : ℕ) (hP : P k) (h : k.TimersList ts)
    (hwrap : ∀ x ∈ ts, k.jiffies.toNat + (k.timeout x).toNat < 2 ^ 32)
    (hm : (ts.filter k.isExpired).length = m) :
    ∃ k' calls, (∀ fuel n, ts.length < fuel → m < n →
        k.timerPass call fuel n = .ok (k', calls)) ∧
      calls = (ts.filter k.isExpired).filter (fun x => (k.handler x).isSome) ∧
      k'.jiffies = k.jiffies ∧ (∀ x, x ∉ calls → k'.starts x = k.starts x) ∧
      k'.TimersList (ts.filter (fun x => !k.isExpired x) ++
        calls.filter fun x => k'.starts x ≠ k.starts x) := by
  induction m generalizing k ts with
  | zero =>
    have hnil := List.length_eq_zero_iff.mp hm
    have hall : ts.filter (fun x => !k.isExpired x) = ts := List.filter_eq_self.mpr fun x hx => by
      simpa using List.filter_eq_nil_iff.mp hnil x hx
    refine ⟨_, [], fun fuel n hfuel hn => timerPass_done h hnil hfuel hn, ?_, rfl,
      fun _ _ => rfl, ?_⟩
    · rw [hnil]
      rfl
    · rw [hall, List.filter_nil, List.append_nil]
      exact h
  | succ m ih =>
    obtain ⟨x, as, bs, rfl, hfirst, hout, hexpired, hothers⟩ := h.first hm
    rw [hexpired, List.length_cons, Nat.add_right_cancel_iff] at hm
    obtain ⟨k₁, hP₁, hit, hrun⟩ := hp.iteration hP h hfirst
    obtain ⟨xs, hl, hxs, hexp₁, hpend₁⟩ := hit.rest hout (hwrap x (by simp))
    have hsub : xs.length ≤ 1 ∧ ∀ y ∈ xs, y = x := by
      rcases hxs with ⟨rfl, -⟩ | ⟨rfl, -⟩ <;> simp
    have hwrap₁ : ∀ y ∈ as ++ bs ++ xs, k₁.jiffies.toNat + (k₁.timeout y).toNat < 2 ^ 32 := by
      intro y hy
      rw [hit.jiffies, hit.timeout]
      rcases List.mem_append.mp hy with hy | hy
      · exact hwrap y (by simp only [List.mem_append, List.mem_cons] at hy ⊢; tauto)
      · exact hsub.2 y hy ▸ hwrap x (by simp)
    obtain ⟨k', calls, hrun', rfl, hj, hkeep, hl'⟩ := ih hP₁ hl hwrap₁ (by rw [hexp₁, hm])
    rw [hexp₁, hit.handler] at hrun' hl' hkeep
    rw [hpend₁] at hl'
    have hxout : x ∉ ((as ++ bs).filter k.isExpired).filter fun y => (k.handler y).isSome :=
      fun hin => hout (List.mem_of_mem_filter (List.mem_of_mem_filter hin))
    -- for the timers called later it does not matter which of the two states their starts are from
    have hcongr : (((as ++ bs).filter k.isExpired).filter fun y => (k.handler y).isSome).filter
        (fun y => decide (k'.starts y ≠ k₁.starts y)) =
        (((as ++ bs).filter k.isExpired).filter fun y => (k.handler y).isSome).filter
          fun y => decide (k'.starts y ≠ k.starts y) := by
      refine List.filter_congr fun y hy => ?_
      rw [(hit.other y (ne_of_mem_of_not_mem hy hxout)).1]
    rw [hcongr] at hl'
    rw [hexpired, hothers, List.filter_cons]
    refine ⟨k', _, fun fuel n hfuel hn => ?_, rfl, hj.trans hit.jiffies, fun y hy => ?_, ?_⟩
    · obtain ⟨n, rfl⟩ : ∃ i, n = i + 1 := ⟨n - 1, by omega⟩
      have hlen : (as ++ bs ++ xs).length < fuel := by
        have hone := hsub.1
        simp only [List.length_append, List.length_cons] at hfuel ⊢
        omega
      rw [hrun fuel n hfuel, hrun' fuel n hlen (by omega)]
      rfl
    · by_cases hyx : y = x
      · subst hyx
        have hno : (k.handler y).isSome = false := Bool.eq_false_iff.mpr fun hsome => hy (by
          rw [if_pos hsome]
          exact List.mem_cons_self)
        rcases hxs with ⟨-, hst⟩ | ⟨-, hsome, -⟩
        · exact (hkeep y hxout).trans hst
        · rw [hno] at hsome
          cases hsome
      · refine (hkeep y fun hin => hy ?_).trans (hit.other y hyx).1
        split
        · exact List.mem_cons_of_mem x hin
        · exact hin
    · rcases hxs with ⟨rfl, hst⟩ | ⟨rfl, hsome, hst⟩
      · have hkept : k'.starts x = k.starts x := (hkeep x hxout).trans hst
        split
        · simpa [hkept] using hl'
        · simpa using hl'
      · have hmore : k'.starts x ≠ k.starts x := fun heq => hst ((hkeep x hxout).symm.trans heq)
        simpa [hsome, hmore] using hl'

/-- **One pass of the timer thread.**  At a fixed value of the tick counter, with handlers that leave the
timers alone or restart their own one and timeouts that do not wrap: the loop ends; it calls the
handlers of the timers that were expired at its start, each once and in the order of the list (a timer
without a handler is only taken from the list); and the list it leaves has the timers that were not
expired, in their order, and behind them the restarted ones in the order of the calls. -/
theorem timer_pass (hp : Handlers P call) (hP : P k) (h : k.TimersList ts)
    (hwrap : ∀ x ∈ ts, k.jiffies.toNat + (k.timeout x).toNat < 2 ^ 32) :
    ∃ k' calls, (∀ fuel n, ts.length < fuel → (ts.filter k.isExpired).length < n →
        k.timerPass call fuel n = .ok (k', calls)) ∧
      calls = (ts.filter k.isExpired).filter (fun x => (k.handler x).isSome) ∧ calls.Nodup ∧
      k'.jiffies = k.jiffies ∧ (∀ x, x ∉ calls → k'.starts x = k.starts x) ∧
      k'.TimersList (ts.filter (fun x => !k.isExpired x) ++
        calls.filter fun x => k'.starts x ≠ k.starts x) := by
  obtain ⟨k', calls, hrun, rfl, hj, hkeep, hl⟩ := hp.pass _ hP h hwrap rfl
  exact ⟨k', _, hrun, rfl, (h.nodup.filter _).filter _, hj, hkeep, hl⟩

/-! ### The handlers of the kernel -/

/-- `thread_timeout_handler`, and the handlers of clients: some of them restart their timer. -/
def runHandler (restarts : TimerRef T C → Bool) (x : TimerRef T C) :
    Handler T → Kernel T C → Outcome Fault (Kernel T C)
  | .threadTimeout t, k => k.threadWakeup t
  | .client, k => if restarts x then k.timerStart x else .ok k

/-- What these handlers rely on: the two lists, and the threads that they wake up. -/
def Attended (k : Kernel T C) : Prop :=
  ∃ rs ts, k.Queues rs ts ∧ (∀ t, t ∈ rs ↔ k.inserted t = true ∧ (k.state t).active = true) ∧
    (∀ x t, k.initialised x = true → k.handler x = some (.threadTimeout t) → k.inserted t = true) ∧
    ∀ x h, k.loop = .handler x h → k.initialised x = true ∧ x ∉ ts ∧
      ∀ t, h = .threadTimeout t → k.inserted t = true

omit [DecidableEq T] [DecidableEq C] in
/-- The invariant of the kernel has what they rely on, wherever the loop is not in a handler. -/
theorem Core.attended {rs : List T} (h : k.Core rs ts) (hloop : ∀ x g, k.loop ≠ .handler x g) :
    k.Attended := by
  refine ⟨rs, ts, h.queues, h.active, fun x t hini hg => ?_, fun x g hg => absurd hg (hloop x g)⟩
  cases x with
  | thread u =>
    obtain rfl : u = t := Handler.threadTimeout.inj (Option.some.inj
      ((h.timers.handlerThread u hini).symm.trans hg))
    exact h.timers.owner u hini
  | client c => cases h.timers.handlerClient c _ hini hg

/-- **The handlers of the kernel** are such handlers. -/
theorem runHandler_handlers (restarts : TimerRef T C → Bool) :
    Handlers (Attended : Kernel T C → Prop) (runHandler restarts) where
  select := by
    rintro k k' ts' fuel ⟨rs, ts, hq, hact, hhand, -⟩ hl hfuel hrun
    obtain rfl : ts' = ts := hl.unique hq.ring_timers
    cases hfirst : ts'.find? k.isExpired with
    | none =>
      cases (timerSelect_none hl hfuel hfirst).symm.trans hrun
      exact ⟨rs, ts', hq, hact, hhand, fun x h hloop => by cases hloop⟩
    | some x =>
      have hini := hq.timers x (List.mem_of_find?_eq_some hfirst)
      obtain ⟨l, hrem, hlinked⟩ := Linked.remove_timer hq hini
      have hnot : x ∉ ts'.erase x := fun hin => (hl.nodup.mem_erase_iff.mp hin).1 rfl
      simp only [timerSelect, hl.expired hfuel, hfirst, timerRemove, hrem, Outcome.ok_bind,
        Outcome.pure_eq] at hrun
      split at hrun
      · next g hg =>
        cases hrun
        refine ⟨rs, ts'.erase x, hlinked, hact, hhand, fun y h hloop => ?_⟩
        cases hloop
        refine ⟨hini, hnot, fun t ht => hhand x t hini ?_⟩
        rw [← ht]
        exact hg
      · cases hrun
        exact ⟨rs, ts'.erase x, hlinked, hact, hhand, fun y h hloop => by cases hloop⟩
  clear := by
    rintro k x ⟨rs, ts, hq, hact, hhand, -⟩ -
    exact ⟨rs, ts, hq, hact, hhand, fun y h hloop => by cases hloop⟩
  call := by
    rintro k x h ⟨rs, ts, hq, hact, hhand, hloc⟩ hloop
    obtain ⟨hini, hx, hins⟩ := hloc x h hloop
    cases h with
    | threadTimeout t =>
      by_cases hs : k.state t = .sleeping
      · have hn : t ∉ rs := by
          rw [hact t, hs]
          simp [ThreadState.active]
        obtain ⟨l, hl, hlinked⟩ := Linked.append_thread hq (hins t rfl) hn
        refine ⟨{ k with state := Function.update k.state t .ready, links := l }, ?_,
          ⟨rs ++ [t], ts, hlinked, active_append hact (hins t rfl) rfl, hhand, fun y h hy => by cases hy⟩,
          .leaves ⟨fun ts' hl' => ?_, rfl, rfl, rfl, rfl, rfl⟩⟩
        · simp only [runHandler, Kernel.threadWakeup, hs, if_true, schedInsert, hl, Outcome.ok_bind,
            Outcome.pure_eq]
        · rw [TimersList.unique hl' hq.ring_timers]
          exact hlinked.ring_timers
      · refine ⟨k, ?_, ⟨rs, ts, hq, hact, hhand, fun y h hy => by cases hy⟩, .leaves (.refl k)⟩
        simp only [runHandler, Kernel.threadWakeup, hs, if_false]
    | client =>
      by_cases hr : restarts x = true
      · obtain ⟨l, hl, hlinked⟩ := Linked.append_timer hq hini hx
        let k₁ : Kernel T C := { k with
          links := l
          expires := Function.update k.expires x (k.jiffies + k.timeout x)
          starts := Function.update k.starts x (k.starts x + 1) }
        have hstart : k.timerStart x = .ok k₁ := by
          simp only [timerStart, hl, Outcome.ok_bind, Outcome.pure_eq, k₁]
        refine ⟨k₁, ?_, ⟨rs, ts ++ [x], hlinked, hact, hhand, fun y h hy => by cases hy⟩,
          .restarts (.refl k) hstart (.refl k₁)⟩
        rw [runHandler, if_pos hr, hstart]
      · exact ⟨k, by rw [runHandler, if_neg hr],
          ⟨rs, ts, hq, hact, hhand, fun y h hy => by cases hy⟩, .leaves (.refl k)⟩

/-- Two timers of clients: one is expired, one is not. -/
def twoTimers (l : Links (LinkRef ℕ ℕ)) : Kernel ℕ ℕ :=
  { twoLists with
    links := l
    jiffies := 5
    expires := fun x => if x = .client 0 then 3 else 9
    handler := fun _ => some .client
    initialised := Function.update (Function.update (fun _ => false) (.client 0) true) (.client 1) true }

/-- In one pass the expired timer is called and restarts, so that it is behind the other one. -/
theorem timer_pass_twoTimers : ∃ (l : Links (LinkRef ℕ ℕ)) (k : Kernel ℕ ℕ),
    (twoTimers l).TimersList [.client 0, .client 1] ∧
      (twoTimers l).timerPass (runHandler fun _ => true) 3 2 = .ok (k, [.client 0]) ∧
      k.TimersList [.client 1, .client 0] := by
  -- the links of the two lists after the two calls of `timer_init_jiffies` and of `timer_start`
  have h₀ : Linked twoLists.links ([] : List ℕ) ([] : List (TimerRef ℕ ℕ)) (fun _ => false)
      (fun _ => false) := by
    obtain ⟨l₁, l₂, h₁, h₂, -⟩ := twoLists_unused
    exact Linked.boot h₁ h₂
  obtain ⟨l₁, hl₁, h₁⟩ := h₀.init_timer (x := .client 0) (by simp)
  obtain ⟨l₂, hl₂, h₂⟩ := h₁.init_timer (x := .client 1) (by simp)
  obtain ⟨l₃, hl₃, h₃⟩ := h₂.append_timer (x := .client 0) (by simp) (by simp)
  obtain ⟨l, hl₄, h⟩ := h₃.append_timer (x := .client 1) (by simp) (by simp)
  have hl : (twoTimers l).TimersList [.client 0, .client 1] := h.ring_timers
  have hP : (twoTimers l).Attended := by
    refine ⟨[], [.client 0, .client 1], h, ?_, ?_, ?_⟩
    · intro t
      simp [twoTimers, twoLists]
    · intro x t _ hg
      cases hg
    · intro x g hg
      cases hg
  obtain ⟨k, calls, hrun, rfl, -, -, -, hlist⟩ :=
    timer_pass (runHandler_handlers fun _ => true) hP hl fun x _ => by
      change (5 : ℕ) + 0 < 2 ^ 32
      decide
  have hpass := hrun 3 2 (by decide) Nat.one_lt_two
  have hstarts : k.starts (.client 0) = 1 := by
    obtain rfl := Outcome.ok.inj (hl₁.symm.trans rfl)
    obtain rfl := Outcome.ok.inj (hl₂.symm.trans rfl)
    obtain rfl := Outcome.ok.inj (hl₃.symm.trans rfl)
    obtain rfl := Outcome.ok.inj (hl₄.symm.trans rfl)
    have heval := congrArg (fun o => o.bind fun r => Outcome.ok (r.1.starts (.client 0))) hpass
    exact (Outcome.ok.inj (Eq.trans rfl heval)).symm
  refine ⟨l, k, hl, hpass, ?_⟩
  have hrestarted : k.starts (.client 0) ≠ (twoTimers l).starts (.client 0) := by
    rw [hstarts]
    exact Nat.one_ne_zero
  have hbehind : k.TimersList (.client 1 ::
      [.client 0].filter fun x => k.starts x ≠ (twoTimers l).starts x) := hlist
  simpa [hrestarted] using hbehind

end Kernel

end Kalisto
