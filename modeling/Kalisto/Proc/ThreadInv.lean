import Kalisto.Proc.Queues
import Kalisto.Proc.Act

/-!
# What holds at every section boundary

The invariant of the threads and timers, in groups that use different fields of the state, so that a
section is asked only for the groups whose fields it changes.

* `JoinInv` — who waits in `thread_join` for whom, and who is a zombie;
* `TimerInv` — which timers are running and which threads their handlers may wake;
* `BlockInv`, `SystemInv`, `LogInv` — the memory of threads under construction, the timer and idle
  threads, the calls of handlers;
* `Base`, `Core` — all of these with the two lists; `Inv` — and one running thread, the current one.
-/

namespace Kalisto

open LinkList

variable {T C : Type}

/-- **Joining.**  A thread that waits for `t` in `thread_join` is the joiner of `t`, and it is asleep
exactly as long as `t` is no zombie. -/
structure JoinInv (ins : T → Bool) (state : T → ThreadState) (pc : T → Pc T C)
    (joiner : T → Option T) (retval : T → Word) (passed : T → Option Word) : Prop where
  waits : ∀ u t, pc u = .join t → ins u = true ∧ ins t = true ∧ u ≠ t ∧ joiner t = some u ∧
    (state u = .sleeping ↔ state t ≠ .zombie)
  joiner : ∀ t u, ins t = true → joiner t = some u → pc u = .join t
  zombie : ∀ t, ins t = true → (state t = .zombie ↔ pc t = .finished)
  passed : ∀ t, ins t = true → state t = .zombie → passed t = some (retval t)

/-- The thread is inside `thread_sleep` or `thread_usleep`. -/
def Pc.inSleep (t : T) : Pc T C → Prop
  | .sleep _ => True
  | .destroy x _ => x = .thread t
  | _ => False

/-- **Timers.**  A timer runs exactly while the timer thread holds it, and the timer of a thread is
pending or running only while that thread is inside `thread_sleep`. -/
structure TimerInv (ins : T → Bool) (ini : TimerRef T C → Bool) (pc : T → Pc T C)
    (running : TimerRef T C → Bool) (handler : TimerRef T C → Option (Handler T))
    (loop : TimerLoop T C) (ts : List (TimerRef T C)) : Prop where
  held : ∀ x, ini x = true → (running x = true ↔ loop.holds x)
  holds : ∀ x, loop.holds x → ini x = true
  busy : ∀ t, .thread t ∈ ts ∨ loop.holds (.thread t) → (pc t).inSleep t
  sleeping : ∀ t u, pc t = .sleep u → ini (.thread t) = true
  destroying : ∀ t x r, pc t = .destroy x r → ini x = true ∧ ∀ s, x = .thread s → s = t
  owner : ∀ t, ini (.thread t) = true → ins t = true
  handlerThread : ∀ t, ini (.thread t) = true → handler (.thread t) = some (.threadTimeout t)
  handlerClient : ∀ c h, ini (.client c) = true → handler (.client c) = some h → h = .client
  localThread : ∀ t h, loop = .handler (.thread t) h → h = .threadTimeout t
  localClient : ∀ c h, loop = .handler (.client c) h → h = .client

/-- **Memory.**  A thread under construction is allocated and known to its creator only. -/
structure BlockInv (block ins : T → Bool) (pc : T → Pc T C) : Prop where
  allocated : ∀ t, ins t = true → block t = true
  creating : ∀ u t, pc u = .create t → block t = true ∧ ins t = false ∧ ins u = true
  unique : ∀ u v t, pc u = .create t → pc v = .create t → u = v

/-- The timer thread and the idle thread, two threads: neither ends, and the idle thread never waits. -/
structure SystemInv (ins : T → Bool) (state : T → ThreadState) (pc : T → Pc T C)
    (timerThread idle : Option T) : Prop where
  ne : timerThread ≠ idle
  timer : ∃ t, timerThread = some t ∧ ins t = true ∧ pc t ≠ .finished
  idle : ∃ t, idle = some t ∧ ins t = true ∧ (state t).active = true

/-- **The calls of handlers.**  No `timer_start` leads to two, and that of a timer in the list has led
to none yet. -/
structure LogInv (starts : TimerRef T C → ℕ) (invoked : List (TimerRef T C × ℕ))
    (loop : TimerLoop T C) (ts : List (TimerRef T C)) : Prop where
  nodup : invoked.Nodup
  le : ∀ x n, (x, n) ∈ invoked → n ≤ starts x
  lt : ∀ x n, (x, n) ∈ invoked → x ∈ ts → n < starts x
  current : ∀ t h, loop = .handler (.thread t) h → (.thread t, starts (.thread t)) ∈ invoked

namespace Kernel

variable [DecidableEq T] [DecidableEq C]

/-- The two lists and the groups that hold from the first thread on. -/
structure Base (k : Kernel T C) (rs : List T) (ts : List (TimerRef T C)) : Prop where
  queues : k.Queues rs ts
  active : ∀ t, t ∈ rs ↔ k.inserted t = true ∧ (k.state t).active = true
  joins : JoinInv k.inserted k.state k.pc k.joiner k.retval k.passed
  timers : TimerInv k.inserted k.initialised k.pc k.running k.handler k.loop ts
  blocks : BlockInv k.block k.inserted k.pc
  log : LogInv k.starts k.invoked k.loop ts

/-- Everything but the current thread. -/
structure Core (k : Kernel T C) (rs : List T) (ts : List (TimerRef T C)) : Prop
    extends Base k rs ts where
  system : SystemInv k.inserted k.state k.pc k.timerThread k.idle

/-- The current thread is the one that is running. -/
def Running (k : Kernel T C) (c : T) : Prop :=
  k.current = some c ∧ k.inserted c = true ∧ ∀ t, k.inserted t = true → (k.state t = .running ↔ t = c)

end Kernel

/-! ### Changes that a group does not see -/

/-- The states agree, or the thread is active in both. -/
def Resched (state state' : T → ThreadState) : Prop :=
  ∀ t, state' t = state t ∨ (state' t).active = true ∧ (state t).active = true

theorem Resched.active {state state' : T → ThreadState} (h : Resched state state') (t : T) :
    (state' t).active = (state t).active := by
  rcases h t with heq | ⟨h1, h2⟩
  · rw [heq]
  · rw [h1, h2]

theorem Resched.iff {state state' : T → ThreadState} (h : Resched state state') (t : T)
    {s : ThreadState} (hs : s.active = false) : state' t = s ↔ state t = s := by
  rcases h t with heq | ⟨h1, h2⟩
  · rw [heq]
  · constructor
    · rintro rfl
      simp [hs] at h1
    · rintro rfl
      simp [hs] at h2

section JoinInv

variable {ins : T → Bool} {state state' : T → ThreadState} {pc : T → Pc T C}
  {joiner : T → Option T} {retval : T → Word} {passed : T → Option Word}

theorem JoinInv.resched (h : JoinInv ins state pc joiner retval passed)
    (hs : Resched state state') : JoinInv ins state' pc joiner retval passed := by
  refine ⟨?_, h.joiner, ?_, ?_⟩
  · intro u t hpc
    obtain ⟨h1, h2, h3, h4, h5⟩ := h.waits u t hpc
    refine ⟨h1, h2, h3, h4, ?_⟩
    rw [hs.iff u (s := .sleeping) rfl, h5, ne_eq, ne_eq, hs.iff t (s := .zombie) rfl]
  · intro t ht
    rw [hs.iff t (s := .zombie) rfl]
    exact h.zombie t ht
  · intro t ht hz
    exact h.passed t ht ((hs.iff t (s := .zombie) rfl).mp hz)

variable [DecidableEq T] {c t : T} {p : Pc T C}

/-- A thread that is not in `thread_join` goes to sleep. -/
theorem JoinInv.sleep (h : JoinInv ins state pc joiner retval passed) (hc : pc c = .run) :
    JoinInv ins (Function.update state c .sleeping) pc joiner retval passed := by
  have hz : ∀ t, ins t = true → (Function.update state c .sleeping t = .zombie ↔ state t = .zombie) := by
    intro t ht
    by_cases htc : t = c
    · subst htc
      have := h.zombie t ht
      simp_all
    · rw [Function.update_of_ne htc]
  refine ⟨?_, h.joiner, ?_, ?_⟩
  · intro u t hpc
    obtain ⟨h1, h2, h3, h4, h5⟩ := h.waits u t hpc
    have huc : u ≠ c := by
      rintro rfl
      simp [hc] at hpc
    refine ⟨h1, h2, h3, h4, ?_⟩
    rw [Function.update_of_ne huc, h5, ne_eq, ne_eq, hz t h2]
  · intro t ht
    rw [hz t ht]
    exact h.zombie t ht
  · intro t ht hzt
    exact h.passed t ht ((hz t ht).mp hzt)

/-- A thread that is not in `thread_join` is woken up. -/
theorem JoinInv.wake (h : JoinInv ins state pc joiner retval passed) (ht : state t = .sleeping)
    (hj : ∀ u, pc t ≠ .join u) :
    JoinInv ins (Function.update state t .ready) pc joiner retval passed := by
  have hz : ∀ u, Function.update state t .ready u = .zombie ↔ state u = .zombie := by
    intro u
    by_cases hut : u = t
    · subst hut
      simp [ht]
    · rw [Function.update_of_ne hut]
  refine ⟨?_, h.joiner, ?_, ?_⟩
  · intro u v hpc
    obtain ⟨h1, h2, h3, h4, h5⟩ := h.waits u v hpc
    have hut : u ≠ t := by
      rintro rfl
      exact hj v hpc
    refine ⟨h1, h2, h3, h4, ?_⟩
    rw [Function.update_of_ne hut, h5, ne_eq, ne_eq, hz v]
  · intro u hu
    rw [hz u]
    exact h.zombie u hu
  · exact fun u hu hzu => h.passed u hu ((hz u).mp hzu)

/-- A thread goes from one place to another, neither of them in `thread_join` or `thread_finish`. -/
theorem JoinInv.move (h : JoinInv ins state pc joiner retval passed)
    (hj : ∀ u, pc c ≠ .join u) (hf : pc c ≠ .finished) (hj' : ∀ u, p ≠ .join u) (hf' : p ≠ .finished) :
    JoinInv ins state (Function.update pc c p) joiner retval passed := by
  refine ⟨?_, ?_, ?_, h.passed⟩
  · intro u t hpc
    have huc : u ≠ c := by
      rintro rfl
      rw [Function.update_self] at hpc
      exact hj' t hpc
    rw [Function.update_of_ne huc] at hpc
    exact h.waits u t hpc
  · intro t u ht hjt
    have hpc := h.joiner t u ht hjt
    have huc : u ≠ c := by
      rintro rfl
      exact hj t hpc
    rw [Function.update_of_ne huc]
    exact hpc
  · intro t ht
    by_cases htc : t = c
    · subst htc
      rw [h.zombie t ht, Function.update_self]
      simp [hf, hf']
    · rw [Function.update_of_ne htc]
      exact h.zombie t ht

/-- `thread_join`: the current thread becomes the joiner of `t` and goes to sleep. -/
theorem JoinInv.join (h : JoinInv ins state pc joiner retval passed) (hc : pc c = .run)
    (hic : ins c = true) (hit : ins t = true) (hne : c ≠ t) (hnone : joiner t = none)
    (hz : state t ≠ .zombie) :
    JoinInv ins (Function.update state c .sleeping) (Function.update pc c (.join t))
      (Function.update joiner t (some c)) retval passed := by
  have hsleep := h.sleep hc
  refine ⟨?_, ?_, ?_, hsleep.passed⟩
  · intro u v hpc
    by_cases huc : u = c
    · subst huc
      obtain rfl : t = v := by simpa using hpc
      rw [Function.update_of_ne hne.symm]
      simp [hic, hit, hne, hz]
    · rw [Function.update_of_ne huc] at hpc
      obtain ⟨h1, h2, h3, h4, h5⟩ := hsleep.waits u v hpc
      have hvt : v ≠ t := by
        rintro rfl
        simp [hnone] at h4
      rw [Function.update_of_ne hvt]
      exact ⟨h1, h2, h3, h4, h5⟩
  · intro v u hv hju
    by_cases hvt : v = t
    · subst hvt
      obtain rfl : c = u := by simpa using hju
      exact Function.update_self _ _ _
    · rw [Function.update_of_ne hvt] at hju
      have hpc := h.joiner v u hv hju
      have huc : u ≠ c := by
        rintro rfl
        simp [hc] at hpc
      rw [Function.update_of_ne huc]
      exact hpc
  · intro v hv
    by_cases hvc : v = c
    · subst hvc
      simp
    · rw [hsleep.zombie v hv, Function.update_of_ne hvc]

/-- `thread_finish`: the current thread becomes a zombie and its joiner is woken up. -/
theorem JoinInv.finish (h : JoinInv ins state pc joiner retval passed) (hc : pc c = .run)
    (hic : ins c = true) (v : Word) (hzc : state' c = .zombie)
    (hj : ∀ j, joiner c = some j → state' j = .ready)
    (hrest : ∀ u, u ≠ c → joiner c ≠ some u → state' u = state u) :
    JoinInv ins state' (Function.update pc c .finished) joiner (Function.update retval c v)
      (Function.update passed c (some v)) := by
  -- a thread that is woken up was in `thread_join`, so it was no zombie
  have hz : ∀ t, ins t = true → t ≠ c → (state' t = .zombie ↔ state t = .zombie) := by
    intro t ht htc
    by_cases hjt : joiner c = some t
    · have hpc := h.joiner c t hic hjt
      rw [hj t hjt, h.zombie t ht, hpc]
      simp
    · rw [hrest t htc hjt]
  have hne : ∀ {u t : T}, pc u = .join t → u ≠ c := by
    rintro u t hpc rfl
    simp [hc] at hpc
  refine ⟨fun u t hpc => ?_, fun t u ht hju => ?_, fun t ht => ?_, fun t ht hzt => ?_⟩
  · by_cases huc : u = c
    · simp [huc] at hpc
    rw [Function.update_of_ne huc] at hpc
    obtain ⟨h1, h2, h3, h4, h5⟩ := h.waits u t hpc
    refine ⟨h1, h2, h3, h4, ?_⟩
    by_cases htc : t = c
    · subst htc
      rw [hj u h4, hzc]
      simp
    · have hju : joiner c ≠ some u := fun hju => by
        have hpc' := h.joiner c u hic hju
        rw [hpc] at hpc'
        exact htc (Pc.join.inj hpc')
      rw [hrest u huc hju, h5, ne_eq, ne_eq, hz t h2 htc]
  · have hpc := h.joiner t u ht hju
    rw [Function.update_of_ne (hne hpc), hpc]
  · by_cases htc : t = c
    · subst htc
      simp [hzc]
    · rw [hz t ht htc, Function.update_of_ne htc, h.zombie t ht]
  · by_cases htc : t = c
    · subst htc
      simp
    · rw [Function.update_of_ne htc, Function.update_of_ne htc]
      exact h.passed t ht ((hz t ht htc).mp hzt)

/-- The end of `thread_join`: the zombie is released. -/
theorem JoinInv.reap (h : JoinInv ins state pc joiner retval passed) (hzt : state t = .zombie)
    (hit : ins t = true) (hc : pc c = .join t ∨ pc c = .run ∧ joiner t = none) :
    JoinInv (Function.update ins t false) state (Function.update pc c .run) joiner retval passed := by
  have hfin : pc t = .finished := (h.zombie t hit).mp hzt
  -- what is left of the threads that are not released
  have hins : ∀ {v : T}, Function.update ins t false v = true → v ≠ t ∧ ins v = true := by
    intro v hv
    by_cases hvt : v = t
    · simp [hvt] at hv
    · rw [Function.update_of_ne hvt] at hv
      exact ⟨hvt, hv⟩
  refine ⟨fun u v hpc => ?_, fun v u hv hju => ?_, fun v hv => ?_, fun v hv hzv => ?_⟩
  · by_cases huc : u = c
    · simp [huc] at hpc
    rw [Function.update_of_ne huc] at hpc
    obtain ⟨h1, h2, h3, h4, h5⟩ := h.waits u v hpc
    have hut : u ≠ t := by
      rintro rfl
      simp [hfin] at hpc
    have hvt : v ≠ t := by
      rintro rfl
      rcases hc with hc | ⟨-, hnone⟩
      · obtain ⟨-, -, -, h4', -⟩ := h.waits c v hc
        exact huc (Option.some.inj (h4.symm.trans h4'))
      · simp [hnone] at h4
    rw [Function.update_of_ne hut, Function.update_of_ne hvt]
    exact ⟨h1, h2, h3, h4, h5⟩
  · obtain ⟨hvt, hv⟩ := hins hv
    have hpc := h.joiner v u hv hju
    have huc : u ≠ c := by
      rintro rfl
      rcases hc with hc | ⟨hc, -⟩
      · exact hvt (Pc.join.inj (hpc.symm.trans hc))
      · simp [hc] at hpc
    rw [Function.update_of_ne huc, hpc]
  · obtain ⟨-, hv⟩ := hins hv
    rw [h.zombie v hv]
    by_cases hvc : v = c
    · subst hvc
      rcases hc with hc | ⟨hc, -⟩ <;> simp [hc]
    · rw [Function.update_of_ne hvc]
  · exact h.passed v (hins hv).2 hzv

/-- `thread_create` inserts a thread. -/
theorem JoinInv.insert (h : JoinInv ins state pc joiner retval passed) (hit : ins t = false) :
    JoinInv (Function.update ins t true) (Function.update state t .ready)
      (Function.update pc t .run) (Function.update joiner t none) (Function.update retval t 0)
      (Function.update passed t none) := by
  -- no thread was joined with the new one
  have hne : ∀ {u : T}, ins u = true → u ≠ t := by
    rintro u hu rfl
    simp [hit] at hu
  refine ⟨fun u v hpc => ?_, fun v u hv hju => ?_, fun v hv => ?_, fun v hv hzv => ?_⟩
  · by_cases hut : u = t
    · simp [hut] at hpc
    rw [Function.update_of_ne hut] at hpc
    obtain ⟨h1, h2, h3, h4, h5⟩ := h.waits u v hpc
    simp only [Function.update_of_ne hut, Function.update_of_ne (hne h2)]
    exact ⟨h1, h2, h3, h4, h5⟩
  · by_cases hvt : v = t
    · simp [hvt] at hju
    rw [Function.update_of_ne hvt] at hv hju
    have hpc := h.joiner v u hv hju
    rw [Function.update_of_ne (hne (h.waits u v hpc).1), hpc]
  · by_cases hvt : v = t
    · simp [hvt]
    · rw [Function.update_of_ne hvt] at hv
      rw [Function.update_of_ne hvt, Function.update_of_ne hvt, h.zombie v hv]
  · by_cases hvt : v = t
    · simp [hvt] at hzv
    · rw [Function.update_of_ne hvt] at hv hzv
      rw [Function.update_of_ne hvt, Function.update_of_ne hvt]
      exact h.passed v hv hzv

end JoinInv

section TimerInv

variable {ins : T → Bool} {ini : TimerRef T C → Bool} {pc : T → Pc T C}
  {running : TimerRef T C → Bool} {handler : TimerRef T C → Option (Handler T)}
  {loop loop' : TimerLoop T C} {ts : List (TimerRef T C)}

@[simp] theorem TimerLoop.holds_select (x : TimerRef T C) : TimerLoop.holds x .select ↔ False :=
  Iff.rfl

@[simp] theorem TimerLoop.holds_suspend (x : TimerRef T C) : TimerLoop.holds x .suspend ↔ False :=
  Iff.rfl

@[simp] theorem TimerLoop.holds_handler (x y : TimerRef T C) (h : Handler T) :
    TimerLoop.holds x (.handler y h) ↔ y = x := Iff.rfl

@[simp] theorem TimerLoop.holds_clear (x : TimerRef T C) (o : Option (TimerRef T C)) :
    TimerLoop.holds x (.clear o) ↔ o = some x := by
  cases o <;> simp [TimerLoop.holds]

@[simp] theorem Pc.inSleep_run (t : T) : Pc.inSleep t (.run : Pc T C) ↔ False := Iff.rfl

@[simp] theorem Pc.inSleep_create (t u : T) : Pc.inSleep t (.create u : Pc T C) ↔ False :=
  Iff.rfl

@[simp] theorem Pc.inSleep_join (t u : T) : Pc.inSleep t (.join u : Pc T C) ↔ False := Iff.rfl

@[simp] theorem Pc.inSleep_finished (t : T) : Pc.inSleep t (.finished : Pc T C) ↔ False :=
  Iff.rfl

@[simp] theorem Pc.inSleep_sleep (t : T) (u : SleepUnit) :
    Pc.inSleep t (.sleep u : Pc T C) ↔ True := Iff.rfl

@[simp] theorem Pc.inSleep_destroy (t : T) (x : TimerRef T C) (r : Option (SleepUnit × Word)) :
    Pc.inSleep t (.destroy x r) ↔ x = .thread t := Iff.rfl

/-- The timer of the thread is in the list or held by the timer thread. -/
def TimerBusy (loop : TimerLoop T C) (ts : List (TimerRef T C)) (x : TimerRef T C) : Prop :=
  x ∈ ts ∨ loop.holds x

theorem TimerInv.not_busy (h : TimerInv ins ini pc running handler loop ts) {t : T}
    (ht : ¬ (pc t).inSleep t) : ¬ TimerBusy loop ts (.thread t) := fun hb => ht (h.busy t hb)

/-- Timers leave the list. -/
theorem TimerInv.shrink (h : TimerInv ins ini pc running handler loop ts)
    {ts' : List (TimerRef T C)} (hsub : ∀ x ∈ ts', x ∈ ts) :
    TimerInv ins ini pc running handler loop ts' :=
  { h with busy := fun t hb => h.busy t (hb.imp_left (hsub _)) }

/-- The timer of a client is started. -/
theorem TimerInv.startClient (h : TimerInv ins ini pc running handler loop ts) (c : C) :
    TimerInv ins ini pc running handler loop (ts ++ [.client c]) := by
  refine { h with busy := fun t hb => h.busy t (hb.imp_left fun hm => ?_) }
  simpa using hm

/-- The timer thread goes to a place outside handlers where it holds the same timer. -/
theorem TimerInv.reloop (h : TimerInv ins ini pc running handler loop ts)
    (hsame : ∀ x, loop'.holds x ↔ loop.holds x) (hno : ∀ x g, loop' ≠ .handler x g) :
    TimerInv ins ini pc running handler loop' ts := by
  refine { h with
    held := fun x hx => (h.held x hx).trans (hsame x).symm
    holds := fun x hx => h.holds x ((hsame x).mp hx)
    busy := fun t hb => h.busy t (hb.imp_right (hsame _).mp)
    localThread := fun _ _ heq => absurd heq (hno _ _)
    localClient := fun _ _ heq => absurd heq (hno _ _) }

variable [DecidableEq T] {c t : T} {p : Pc T C}

/-- A thread whose timer is not busy goes to a place outside `thread_sleep` and `timer_destroy`. -/
theorem TimerInv.move (h : TimerInv ins ini pc running handler loop ts)
    (hfree : ¬ TimerBusy loop ts (.thread c)) (hs : ∀ u, p ≠ .sleep u) (hd : ∀ x r, p ≠ .destroy x r) :
    TimerInv ins ini (Function.update pc c p) running handler loop ts := by
  obtain ⟨h1, h2, h3, h4, h5, h6, h7, h8, h9, h10⟩ := h
  refine ⟨h1, h2, ?_, ?_, ?_, h6, h7, h8, h9, h10⟩ <;> simp only [Function.update_apply]
  · intro t hb
    by_cases htc : t = c
    · exact absurd (htc ▸ hb) hfree
    · simpa [htc] using h3 t hb
  · intro t u hpc
    split at hpc
    · exact absurd hpc (hs u)
    · exact h4 t u hpc
  · intro t x r hpc
    split at hpc
    · exact absurd hpc (hd x r)
    · exact h5 t x r hpc

/-- The current thread waits in `timer_destroy`. -/
theorem TimerInv.wait (h : TimerInv ins ini pc running handler loop ts) {x : TimerRef T C}
    (hx : ini x = true) (hown : ∀ s, x = .thread s → s = c)
    (hor : ¬ TimerBusy loop ts (.thread c) ∨ x = .thread c) (r : Option (SleepUnit × Word)) :
    TimerInv ins ini (Function.update pc c (.destroy x r)) running handler loop ts := by
  obtain ⟨h1, h2, h3, h4, h5, h6, h7, h8, h9, h10⟩ := h
  refine ⟨h1, h2, ?_, ?_, ?_, h6, h7, h8, h9, h10⟩ <;> simp only [Function.update_apply]
  · intro t hb
    by_cases htc : t = c
    · subst htc
      rcases hor with hor | hor
      · exact absurd hb hor
      · simpa using hor
    · simpa [htc] using h3 t hb
  · intro t u hpc
    split at hpc
    · cases hpc
    · exact h4 t u hpc
  · intro t y q hpc
    split at hpc
    · next htc =>
      cases hpc
      exact ⟨hx, fun s hs => (hown s hs).trans htc.symm⟩
    · exact h5 t y q hpc

/-- `thread_create` inserts a thread. -/
theorem TimerInv.insert (h : TimerInv ins ini pc running handler loop ts)
    (hts : ∀ x ∈ ts, ini x = true) (hit : ins t = false) :
    TimerInv (Function.update ins t true) ini (Function.update pc t .run) running handler loop ts := by
  have hfree : ¬ TimerBusy loop ts (.thread t) := by
    rintro (hb | hb)
    · simpa [hit] using h.owner t (hts _ hb)
    · simpa [hit] using h.owner t (h.holds _ hb)
  have hmove := h.move hfree (p := .run) (by simp) (by simp)
  refine { hmove with owner := fun s hs => ?_ }
  rw [Function.update_apply]
  split
  · rfl
  · exact h.owner s hs

variable [DecidableEq C]

/-- The end of `thread_join`: the timer of the zombie goes with its memory. -/
theorem TimerInv.reap (h : TimerInv ins ini pc running handler loop ts) (ht : pc t = .finished)
    (hc : ¬ (pc c).inSleep c) :
    TimerInv (Function.update ins t false) (Function.update ini (.thread t) false)
      (Function.update pc c .run) running handler loop ts := by
  have hfree : ¬ TimerBusy loop ts (.thread t) := h.not_busy (by simp [ht])
  have hmove := h.move (h.not_busy hc) (p := .run) (by simp) (by simp)
  obtain ⟨h1, h2, h3, h4, h5, h6, h7, h8, h9, h10⟩ := hmove
  have hout : ∀ {x : TimerRef T C}, loop.holds x → x ≠ .thread t := by
    rintro x hx rfl
    exact hfree (Or.inr hx)
  -- the zombie is in no call
  have hfin : Function.update pc c .run t = .finished ∨ Function.update pc c .run t = .run := by
    rw [Function.update_apply]
    split
    · exact Or.inr rfl
    · exact Or.inl ht
  refine ⟨fun x hx => ?_, fun x hx => ?_, h3, fun u v hpc => ?_, fun u x r hpc => ?_, fun u hu => ?_,
    fun u hu => ?_, fun d g hd => ?_, h9, h10⟩
  · by_cases hxt : x = .thread t
    · simp [hxt] at hx
    · rw [Function.update_of_ne hxt] at hx
      exact h1 x hx
  · rw [Function.update_of_ne (hout hx)]
    exact h2 x hx
  · have hut : TimerRef.thread u ≠ (.thread t : TimerRef T C) := by
      rintro ⟨rfl⟩
      rcases hfin with hfin | hfin <;> simp [hfin] at hpc
    rw [Function.update_of_ne hut]
    exact h4 u v hpc
  · obtain ⟨hx, hown⟩ := h5 u x r hpc
    have hxt : x ≠ .thread t := by
      rintro rfl
      obtain rfl := hown t rfl
      rcases hfin with hfin | hfin <;> simp [hfin] at hpc
    rw [Function.update_of_ne hxt]
    exact ⟨hx, hown⟩
  · by_cases hut : u = t
    · simp [hut] at hu
    · rw [Function.update_of_ne (by simpa using hut)] at hu
      rw [Function.update_of_ne hut]
      exact h6 u hu
  · by_cases hut : u = t
    · simp [hut] at hu
    · rw [Function.update_of_ne (by simpa using hut)] at hu
      exact h7 u hu
  · rw [Function.update_of_ne (by simp)] at hd
    exact h8 d g hd

/-- `thread_sleep` initialises and starts the timer of the current thread. -/
theorem TimerInv.arm (h : TimerInv ins ini pc running handler loop ts) (hc : pc c = .run)
    (hic : ins c = true) (u : SleepUnit) :
    TimerInv ins (Function.update ini (.thread c) true) (Function.update pc c (.sleep u))
      (Function.update running (.thread c) false)
      (Function.update handler (.thread c) (some (.threadTimeout c))) loop (ts ++ [.thread c]) := by
  have hfree : ¬ TimerBusy loop ts (.thread c) := h.not_busy (by simp [hc])
  obtain ⟨h1, h2, h3, h4, h5, h6, h7, h8, h9, h10⟩ := h
  refine ⟨fun x hx => ?_, fun x hx => ?_, fun t hb => ?_, fun t v hpc => ?_, fun t x r hpc => ?_, fun t ht => ?_,
    fun t ht => ?_, fun d g hd hg => ?_, h9, h10⟩
  · by_cases hxc : x = .thread c
    · subst hxc
      simpa using fun hx => hfree (Or.inr hx)
    · rw [Function.update_of_ne hxc] at hx ⊢
      exact h1 x hx
  · rw [Function.update_apply]
    split
    · rfl
    · exact h2 x hx
  · by_cases htc : t = c
    · simp [htc]
    · simpa [htc] using h3 t (by simpa [htc] using hb)
  · by_cases htc : t = c
    · simp [htc]
    · rw [Function.update_of_ne htc] at hpc
      rw [Function.update_of_ne (by simpa using htc)]
      exact h4 t v hpc
  · by_cases htc : t = c
    · simp [htc] at hpc
    · rw [Function.update_of_ne htc] at hpc
      obtain ⟨hx, hown⟩ := h5 t x r hpc
      refine ⟨?_, hown⟩
      rw [Function.update_apply, hx, ite_self]
  · by_cases htc : t = c
    · rw [htc, hic]
    · rw [Function.update_of_ne (by simpa using htc)] at ht
      exact h6 t ht
  · by_cases htc : t = c
    · simp [htc]
    · rw [Function.update_of_ne (by simpa using htc)] at ht ⊢
      exact h7 t ht
  · rw [Function.update_of_ne (by simp)] at hd hg
    exact h8 d g hd hg

/-- `timer_init_jiffies` of a client, on a timer that the timer thread does not hold. -/
theorem TimerInv.initClient (h : TimerInv ins ini pc running handler loop ts) {x : C}
    (hx : ¬ loop.holds (.client x)) (b : Bool) :
    TimerInv ins (Function.update ini (.client x) true) pc
      (Function.update running (.client x) false)
      (Function.update handler (.client x) (if b then some .client else none)) loop ts := by
  obtain ⟨h1, h2, h3, h4, h5, h6, h7, h8, h9, h10⟩ := h
  refine ⟨fun y hy => ?_, fun y hy => ?_, h3, fun t u hpc => ?_, fun t y r hpc => ?_, fun t ht => ?_,
    fun t ht => ?_, fun d g hd hg => ?_, h9, h10⟩
  · by_cases hyx : y = .client x
    · simp [hyx, hx]
    · rw [Function.update_of_ne hyx] at hy ⊢
      exact h1 y hy
  · rw [Function.update_apply, h2 y hy, ite_self]
  · rw [Function.update_of_ne (by simp)]
    exact h4 t u hpc
  · obtain ⟨hy, hown⟩ := h5 t y r hpc
    exact ⟨by rw [Function.update_apply, hy, ite_self], hown⟩
  · rw [Function.update_of_ne (by simp)] at ht
    exact h6 t ht
  · rw [Function.update_of_ne (by simp)] at ht ⊢
    exact h7 t ht
  · by_cases hdx : d = x
    · subst hdx
      rw [Function.update_self] at hg
      split at hg <;> cases hg
      rfl
    · rw [Function.update_of_ne (by simpa using hdx)] at hd hg
      exact h8 d g hd hg

/-- The memory of a timer that is not busy is released. -/
theorem TimerInv.release (h : TimerInv ins ini pc running handler loop ts) {x : C}
    (hx : ¬ loop.holds (.client x)) (hd : ∀ t r, pc t ≠ .destroy (.client x) r) (b : Bool)
    (g : Option (Handler T)) :
    TimerInv ins (Function.update ini (.client x) false) pc (Function.update running (.client x) b)
      (Function.update handler (.client x) g) loop ts := by
  obtain ⟨h1, h2, h3, h4, h5, h6, h7, h8, h9, h10⟩ := h
  refine ⟨fun y hy => ?_, fun y hy => ?_, h3, fun t u hpc => ?_, fun t y r hpc => ?_, fun t ht => ?_,
    fun t ht => ?_, fun d f he hf => ?_, h9, h10⟩
  · by_cases hyx : y = .client x
    · simp [hyx] at hy
    · rw [Function.update_of_ne hyx] at hy ⊢
      exact h1 y hy
  · have hyx : y ≠ .client x := by
      rintro rfl
      exact hx hy
    rw [Function.update_of_ne hyx]
    exact h2 y hy
  · rw [Function.update_of_ne (by simp)]
    exact h4 t u hpc
  · have hyx : y ≠ .client x := by
      rintro rfl
      exact hd t r hpc
    rw [Function.update_of_ne hyx]
    exact h5 t y r hpc
  · rw [Function.update_of_ne (by simp)] at ht
    exact h6 t ht
  · rw [Function.update_of_ne (by simp)] at ht ⊢
    exact h7 t ht
  · by_cases hdx : d = x
    · simp [hdx] at he
    · rw [Function.update_of_ne (by simpa using hdx)] at he hf
      exact h8 d f he hf

/-- The timer thread takes an expired timer. -/
theorem TimerInv.select (h : TimerInv ins ini pc running handler .select ts) {x : TimerRef T C}
    (hx : x ∈ ts) (hix : ini x = true) (hloop : loop = .clear (some x) ∨
      ∃ g, handler x = some g ∧ loop = .handler x g) :
    TimerInv ins ini pc (Function.update running x true) handler loop (ts.erase x) := by
  have hholds : ∀ y, loop.holds y ↔ x = y := by
    rcases hloop with rfl | ⟨g, -, rfl⟩ <;> simp
  obtain ⟨h1, h2, h3, h4, h5, h6, h7, h8, h9, h10⟩ := h
  refine ⟨fun y hy => ?_, fun y hy => (hholds y).mp hy ▸ hix, fun t hb => ?_, h4, h5, h6, h7, h8,
    fun t f heq => ?_, fun d f heq => ?_⟩
  · rw [hholds]
    by_cases hyx : y = x
    · simp [hyx]
    · rw [Function.update_of_ne hyx, h1 y hy]
      simp [Ne.symm hyx]
  · rcases hb with hb | hb
    · exact h3 t (Or.inl (List.mem_of_mem_erase hb))
    · exact h3 t (Or.inl ((hholds _).mp hb ▸ hx))
  · rcases hloop with rfl | ⟨g, hg, rfl⟩
    · cases heq
    · cases heq
      exact Option.some.inj (hg.symm.trans (h7 t hix))
  · rcases hloop with rfl | ⟨g, hg, rfl⟩
    · cases heq
    · cases heq
      exact h8 d f hix hg

/-- The timer thread clears the flag. -/
theorem TimerInv.clear {x : TimerRef T C}
    (h : TimerInv ins ini pc running handler (.clear (some x)) ts) :
    TimerInv ins ini pc (Function.update running x false) handler .select ts := by
  obtain ⟨h1, h2, h3, h4, h5, h6, h7, h8, h9, h10⟩ := h
  refine ⟨fun y hy => ?_, fun y hy => hy.elim, fun t hb => h3 t (hb.imp_right False.elim), h4, h5, h6, h7, h8,
    fun _ _ heq => (nomatch heq), fun _ _ heq => (nomatch heq)⟩
  by_cases hyx : y = x
  · simp [hyx]
  · rw [Function.update_of_ne hyx, h1 y hy]
    simp [Ne.symm hyx]

end TimerInv

section Rest

variable {block ins : T → Bool} {state state' : T → ThreadState} {pc : T → Pc T C}
  {timer idle : Option T} {starts : TimerRef T C → ℕ} {invoked : List (TimerRef T C × ℕ)}
  {loop loop' : TimerLoop T C} {ts : List (TimerRef T C)} [DecidableEq T] {c t : T} {p : Pc T C}

/-- The threads that are under construction were so before. -/
theorem Pc.create_of_update {u v : T} (hp : ∀ t, p ≠ .create t)
    (h : Function.update pc c p u = .create v) : pc u = .create v := by
  rw [Function.update_apply] at h
  split at h
  · exact absurd h (hp v)
  · exact h

/-- A thread goes to a place outside `thread_create`. -/
theorem BlockInv.move (h : BlockInv block ins pc) (hp : ∀ t, p ≠ .create t) :
    BlockInv block ins (Function.update pc c p) :=
  ⟨h.allocated, fun u t hpc => h.creating u t (Pc.create_of_update hp hpc),
    fun u v t hu hv => h.unique u v t (Pc.create_of_update hp hu) (Pc.create_of_update hp hv)⟩

/-- `thread_create` gets the memory of a thread. -/
theorem BlockInv.alloc (h : BlockInv block ins pc) (hic : ins c = true) (ht : block t = false) :
    BlockInv (Function.update block t true) ins (Function.update pc c (.create t)) := by
  -- nobody else creates that thread
  have hother : ∀ {u : T}, pc u ≠ .create t := fun hpc => by
    have hblock := (h.creating _ t hpc).1
    rw [ht] at hblock
    cases hblock
  refine ⟨fun v hv => ?_, fun u v hpc => ?_, fun u v x hu hv => ?_⟩
  · rw [Function.update_apply, h.allocated v hv, ite_self]
  · by_cases huc : u = c
    · obtain rfl : t = v := by simpa [huc] using hpc
      refine ⟨Function.update_self .., ?_, huc ▸ hic⟩
      by_contra hins
      rw [h.allocated t (by simpa using hins)] at ht
      cases ht
    · rw [Function.update_of_ne huc] at hpc
      obtain ⟨h1, h2, h3⟩ := h.creating u v hpc
      exact ⟨by rw [Function.update_apply, h1, ite_self], h2, h3⟩
  · by_cases huc : u = c <;> by_cases hvc : v = c
    · rw [huc, hvc]
    · obtain rfl : t = x := by simpa [huc] using hu
      rw [Function.update_of_ne hvc] at hv
      exact absurd hv hother
    · obtain rfl : t = x := by simpa [hvc] using hv
      rw [Function.update_of_ne huc] at hu
      exact absurd hu hother
    · rw [Function.update_of_ne huc] at hu
      rw [Function.update_of_ne hvc] at hv
      exact h.unique u v x hu hv

/-- `thread_create` inserts the thread. -/
theorem BlockInv.insert (h : BlockInv block ins pc) (hbt : block t = true)
    (hc : ∀ u, pc u ≠ .create t) :
    BlockInv block (Function.update ins t true) (Function.update pc t .run) := by
  have hmove : BlockInv block ins (Function.update pc t .run) := h.move (by simp)
  refine ⟨fun v hv => ?_, fun u v hpc => ?_, hmove.unique⟩
  · by_cases hvt : v = t
    · rw [hvt, hbt]
    · rw [Function.update_of_ne hvt] at hv
      exact h.allocated v hv
  · obtain ⟨h1, h2, h3⟩ := hmove.creating u v hpc
    have hvt : v ≠ t := by
      rintro rfl
      exact hc u (Pc.create_of_update (by simp) hpc)
    rw [Function.update_of_ne hvt]
    exact ⟨h1, h2, by rw [Function.update_apply, h3, ite_self]⟩

/-- The memory of a zombie is released. -/
theorem BlockInv.reap (h : BlockInv block ins pc) (ht : pc t = .finished) (hit : ins t = true) :
    BlockInv (Function.update block t false) (Function.update ins t false)
      (Function.update pc c .run) := by
  have hmove : BlockInv block ins (Function.update pc c .run) := h.move (by simp)
  refine ⟨fun v hv => ?_, fun u v hpc => ?_, hmove.unique⟩
  · by_cases hvt : v = t
    · simp [hvt] at hv
    · rw [Function.update_of_ne hvt] at hv ⊢
      exact h.allocated v hv
  · obtain ⟨h1, h2, h3⟩ := hmove.creating u v hpc
    have hvt : v ≠ t := by
      rintro rfl
      simp [hit] at h2
    have hut : u ≠ t := by
      rintro rfl
      have hpc' := Pc.create_of_update (by simp) hpc
      simp [ht] at hpc'
    simp only [Function.update_of_ne hvt, Function.update_of_ne hut]
    exact ⟨h1, h2, h3⟩

omit [DecidableEq T] in
theorem SystemInv.resched (h : SystemInv ins state pc timer idle) (hs : Resched state state') :
    SystemInv ins state' pc timer idle := by
  obtain ⟨i, hi, hii, hact⟩ := h.idle
  exact ⟨h.ne, h.timer, i, hi, hii, (hs.active i).trans hact⟩

/-- A thread that is not the idle thread changes its state. -/
theorem SystemInv.setState (h : SystemInv ins state pc timer idle) {s : ThreadState}
    (hc : idle ≠ some c ∨ s.active = true) :
    SystemInv ins (Function.update state c s) pc timer idle := by
  obtain ⟨i, hi, hii, hact⟩ := h.idle
  refine ⟨h.ne, h.timer, i, hi, hii, ?_⟩
  rw [Function.update_apply]
  split
  · next hic =>
    rcases hc with hc | hc
    · exact absurd (hic ▸ hi) hc
    · exact hc
  · exact hact

/-- A thread goes to another place; the timer thread does not finish. -/
theorem SystemInv.move (h : SystemInv ins state pc timer idle)
    (hp : p ≠ .finished ∨ timer ≠ some c) : SystemInv ins state (Function.update pc c p) timer idle := by
  obtain ⟨u, hu, hiu, hfin⟩ := h.timer
  refine ⟨h.ne, ⟨u, hu, hiu, ?_⟩, h.idle⟩
  rw [Function.update_apply]
  split
  · next huc =>
    rcases hp with hp | hp
    · exact hp
    · exact absurd (huc ▸ hu) hp
  · exact hfin

theorem SystemInv.insert (h : SystemInv ins state pc timer idle) :
    SystemInv (Function.update ins t true) state pc timer idle := by
  obtain ⟨u, hu, hiu, hfin⟩ := h.timer
  obtain ⟨i, hi, hii, hact⟩ := h.idle
  refine ⟨h.ne, ⟨u, hu, ?_, hfin⟩, i, hi, ?_, hact⟩ <;> rw [Function.update_apply] <;> split
  · rfl
  · exact hiu
  · rfl
  · exact hii

/-- Neither of the two is a zombie that could be released. -/
theorem SystemInv.reap (h : SystemInv ins state pc timer idle) (hpt : pc t = .finished)
    (hzt : state t = .zombie) : SystemInv (Function.update ins t false) state pc timer idle := by
  obtain ⟨u, hu, hiu, hfin⟩ := h.timer
  obtain ⟨i, hi, hii, hact⟩ := h.idle
  have hut : u ≠ t := fun heq => hfin (heq ▸ hpt)
  have hit : i ≠ t := by
    rintro rfl
    simp [hzt, ThreadState.active] at hact
  refine ⟨h.ne, ⟨u, hu, ?_, hfin⟩, i, hi, ?_, hact⟩
  · rw [Function.update_of_ne hut]
    exact hiu
  · rw [Function.update_of_ne hit]
    exact hii

omit [DecidableEq T] in
/-- Timers leave the list. -/
theorem LogInv.shrink (h : LogInv starts invoked loop ts) {ts' : List (TimerRef T C)}
    (hsub : ∀ x ∈ ts', x ∈ ts) : LogInv starts invoked loop ts' :=
  { h with lt := fun x n hm hx => h.lt x n hm (hsub x hx) }

omit [DecidableEq T] in
/-- The timer thread leaves a handler, or is in none. -/
theorem LogInv.reloop (h : LogInv starts invoked loop ts) (hno : ∀ x g, loop' ≠ .handler x g) :
    LogInv starts invoked loop' ts := { h with current := fun _ _ heq => absurd heq (hno _ _) }

variable [DecidableEq C]

/-- `timer_start`. -/
theorem LogInv.start (h : LogInv starts invoked loop ts) {x : TimerRef T C}
    (hx : ∀ t, x = .thread t → ¬ loop.holds x) :
    LogInv (Function.update starts x (starts x + 1)) invoked loop (ts ++ [x]) := by
  refine ⟨h.nodup, fun y n hm => ?_, fun y n hm hy => ?_, fun t g heq => ?_⟩
  · have hle := h.le y n hm
    rw [Function.update_apply]
    split
    · next hyx =>
      rw [← hyx]
      omega
    · exact hle
  · by_cases hyx : y = x
    · have hle := h.le y n hm
      rw [hyx, Function.update_self, ← hyx]
      omega
    · rw [Function.update_of_ne hyx]
      exact h.lt y n hm (by simpa [hyx] using hy)
  · have hne : TimerRef.thread t ≠ x := by
      rintro rfl
      exact hx t rfl (by simp [heq])
    rw [Function.update_of_ne hne]
    exact h.current t g heq

/-- The timer thread calls the handler of a timer that it took from the list. -/
theorem LogInv.invoke (h : LogInv starts invoked loop ts) {x : TimerRef T C} (hx : x ∈ ts)
    (hnd : ts.Nodup) (g : Handler T) :
    LogInv starts ((x, starts x) :: invoked) (.handler x g) (ts.erase x) := by
  obtain ⟨h1, h2, h3, h4⟩ := h
  refine ⟨?_, ?_, ?_, ?_⟩
  · refine List.nodup_cons.mpr ⟨fun hm => ?_, h1⟩
    exact absurd (h3 x _ hm hx) (lt_irrefl _)
  · intro y n hm
    rcases List.mem_cons.mp hm with heq | hm
    · cases heq
      exact le_rfl
    · exact h2 y n hm
  · intro y n hm hy
    obtain ⟨hyx, hy⟩ := hnd.mem_erase_iff.mp hy
    rcases List.mem_cons.mp hm with heq | hm
    · exact absurd (congrArg Prod.fst heq) hyx
    · exact h3 y n hm hy
  · rintro t g' heq
    obtain ⟨rfl, -⟩ : x = .thread t ∧ g = g' := by simpa using heq
    exact List.mem_cons_self

end Rest

end Kalisto
