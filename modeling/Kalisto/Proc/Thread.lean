import Kalisto.Adt.List

/-!
# Threads, the scheduler and the timers

The state of `proc/thread.c`, `sched/sched.c` and `time/timer.c` on one processor, and the code of
the three files.  The fields of the control blocks are one map for each field; the links of the two
lists, `runnable_list` and `timers_list`, are kept as pointers.

A thread that is switched out stays where its context was saved, so the state has the place of every
thread (`Pc`), and the place of the timer thread in its loop (`TimerLoop`).  A section with disabled
interrupts runs without a break up to the point where interrupts are enabled again or another thread
is switched to; `Act` lists the sections, and `Act.run` is their code.  A tick comes where interrupts
are enabled.

The records of the past (`block`, `inserted`, `passed`, `starts` and so on) are not part of the
kernel; no section reads them.
-/

namespace Kalisto

/-- `thread_state_t`. -/
inductive ThreadState where
  | ready
  | running
  | sleeping
  | zombie
  deriving DecidableEq, Repr

/-- The thread is one the scheduler may choose. -/
def ThreadState.active : ThreadState → Bool
  | ready | running => true
  | sleeping | zombie => false

/-- A `struct timer`: the one in the control block of a thread, or one of a client. -/
inductive TimerRef (T C : Type) where
  | thread (t : T)
  | client (c : C)
  deriving DecidableEq

/-- A `link_t`: the head of a list, or the link of a thread or of a timer. -/
inductive LinkRef (T C : Type) where
  | runnableList
  | timersList
  | thread (t : T)
  | timer (x : TimerRef T C)
  deriving DecidableEq

/-- A handler with its data: `thread_timeout_handler` with a thread, or the code of a client. -/
inductive Handler (T : Type) where
  | threadTimeout (data : T)
  | client
  deriving DecidableEq

/-- `thread_sleep` and `thread_usleep`. -/
inductive SleepUnit where
  | sec
  | usec
  deriving DecidableEq

/-- `TIMER_PERIOD`. -/
def timerPeriod : Word := 1000

/-- `sec_to_jiffies` and `usec_to_jiffies`. -/
def SleepUnit.toJiffies : SleepUnit → Word → Word
  | sec, n => n * timerPeriod
  | usec, n => (n * timerPeriod + 999999) / 1000000

/-- `jiffies_to_sec` and `jiffies_to_usec`. -/
def SleepUnit.ofJiffies : SleepUnit → Word → Word
  | sec, n => (n + timerPeriod - 1) / timerPeriod
  | usec, n => (n * 1000000 + timerPeriod - 1) / timerPeriod

/-- Where the saved context of a thread continues. -/
inductive Pc (T C : Type) where
  /-- in its own code, with enabled interrupts -/
  | run
  /-- in `thread_create`, which has the memory of the new thread -/
  | create (t : T)
  /-- in `thread_join`, after `thread_suspend` -/
  | join (t : T)
  /-- in `thread_sleep` or `thread_usleep`, after `schedule` -/
  | sleep (u : SleepUnit)
  /-- in `timer_destroy`, after `thread_yield`; `remains` of the caller when that is `thread_sleep` -/
  | destroy (x : TimerRef T C) (remains : Option (SleepUnit × Word))
  /-- in `thread_finish`, after `schedule` -/
  | finished
  deriving DecidableEq

/-- Where the timer thread is in `timer_thread_func`. -/
inductive TimerLoop (T C : Type) where
  /-- before the search for an expired timer -/
  | select
  /-- in the handler of `expired_timer` -/
  | handler (x : TimerRef T C) (h : Handler T)
  /-- before `expired_timer->running = false` -/
  | clear (x : Option (TimerRef T C))
  /-- before `thread_suspend` -/
  | suspend
  deriving DecidableEq

/-- `expired_timer` is this timer. -/
def TimerLoop.holds {T C : Type} (x : TimerRef T C) : TimerLoop T C → Prop
  | handler y _ => y = x
  | clear (some y) => y = x
  | _ => False

/-- **The state.** -/
structure Kernel (T C : Type) where
  links : Links (LinkRef T C)
  state : T → ThreadState
  scheduled : T → Word
  joiner : T → Option T
  retval : T → Word
  timeout : TimerRef T C → Word
  expires : TimerRef T C → Word
  running : TimerRef T C → Bool
  handler : TimerRef T C → Option (Handler T)
  current : Option T
  timerThread : Option T
  jiffies : Word
  pc : T → Pc T C
  loop : TimerLoop T C
  /-- the idle thread of `bsp_start` -/
  idle : Option T
  /-- the memory of the thread is allocated -/
  block : T → Bool
  /-- `thread_create` has passed the thread to `sched_insert`, and it is not released -/
  inserted : T → Bool
  /-- `timer_init_jiffies` was called on the timer -/
  initialised : TimerRef T C → Bool
  /-- the value that the thread passed to `thread_finish` -/
  passed : T → Option Word
  /-- the number of calls of `timer_start` -/
  starts : TimerRef T C → ℕ
  /-- the calls of handlers, each with the number of the `timer_start` before it -/
  invoked : List (TimerRef T C × ℕ)
  /-- `schedule` has found the runnable list empty -/
  foundEmpty : Bool

/-- The content of the memory of a timer. -/
structure TimerMemory (T C : Type) where
  prev : Option (LinkRef T C)
  next : Option (LinkRef T C)
  timeout : Word
  expires : Word
  running : Bool
  handler : Option (Handler T)

/-- What a section makes known. -/
inductive Event (T C : Type) where
  /-- `thread_create` got the memory of the thread -/
  | created (t : T)
  /-- `thread_join` returned `EOK`: it stored the value and released the memory of the thread -/
  | joined (t : T) (retval : Word)
  /-- `thread_join` returned `EINVAL` -/
  | invalid (t : T)
  /-- `timer_destroy` returned -/
  | destroyed (x : TimerRef T C)
  /-- `thread_sleep` or `thread_usleep` returned -/
  | slept (remains : Word)
  deriving DecidableEq

namespace Kernel

open LinkList

variable {T C : Type} [DecidableEq T] [DecidableEq C]

/-! ### `sched/sched.c` -/

/-- `list_item (link, struct thread, link)`; the link of something else is never followed. -/
def threadItem : LinkRef T C → Outcome Fault T
  | .thread t => .ok t
  | _ => .fault .panic

/-- `sched_insert`. -/
def schedInsert (k : Kernel T C) (t : T) : Outcome Fault (Kernel T C) := do
  let l ← listAppend k.links (some .runnableList) (some (.thread t))
  return { k with links := l }

/-- `sched_remove`. -/
def schedRemove (k : Kernel T C) (t : T) : Outcome Fault (Kernel T C) := do
  let l ← listRemove k.links (some (.thread t))
  return { k with links := l }

/-- `current->state = THREAD_READY` of `thread_switch`, for a thread that was running. -/
def preempt (k : Kernel T C) : Kernel T C :=
  match k.current with
  | some c =>
    if k.state c = .running then { k with state := Function.update k.state c .ready } else k
  | none => k

/-- `thread_switch`. -/
def threadSwitch (k : Kernel T C) (t : T) : Kernel T C :=
  let k := k.preempt
  { k with current := some t, state := Function.update k.state t .running }

/-- `schedule`; `now` is the value of `timer_get`. -/
def schedule (now : Word) (k : Kernel T C) : Outcome Fault (Kernel T C) := do
  let (link, l) ← listRotate k.links (some .runnableList)
  let k := { k with links := l }
  match link with
  | none => return { k with foundEmpty := true }
  | some link => do
    let t ← threadItem link
    let k := { k with scheduled := Function.update k.scheduled t now }
    return k.threadSwitch t

/-! ### Suspending and waking up -/

/-- `thread_suspend`. -/
def threadSuspend (now : Word) (k : Kernel T C) : Outcome Fault (Kernel T C) := do
  let c ← LinkList.deref k.current
  let k := { k with state := Function.update k.state c .sleeping }
  let k ← k.schedRemove c
  k.schedule now

/-- `thread_wakeup`. -/
def threadWakeup (k : Kernel T C) (t : T) : Outcome Fault (Kernel T C) :=
  if k.state t = .sleeping then
    { k with state := Function.update k.state t .ready }.schedInsert t
  else .ok k

/-! ### Timers -/

/-- `timer_pending`. -/
def timerPending (k : Kernel T C) (x : TimerRef T C) : Outcome Fault Bool :=
  linkConnected k.links (some (.timer x))

/-- `timer_remove`. -/
def timerRemove (k : Kernel T C) (x : TimerRef T C) : Outcome Fault (Kernel T C) := do
  let l ← listRemove k.links (some (.timer x))
  return { k with links := l }

/-- `timer_init_jiffies`. -/
def timerInitJiffies (k : Kernel T C) (x : TimerRef T C) (timeout : Word)
    (handler : Option (Handler T)) : Outcome Fault (Kernel T C) := do
  let l ← linkInit k.links (some (.timer x))
  return { k with
    links := l
    expires := Function.update k.expires x 0
    timeout := Function.update k.timeout x timeout
    running := Function.update k.running x false
    handler := Function.update k.handler x handler
    initialised := Function.update k.initialised x true }

/-- `timer_start`. -/
def timerStart (k : Kernel T C) (x : TimerRef T C) : Outcome Fault (Kernel T C) := do
  let l ← listAppend k.links (some .timersList) (some (.timer x))
  return { k with
    links := l
    expires := Function.update k.expires x (k.jiffies + k.timeout x)
    starts := Function.update k.starts x (k.starts x + 1) }

/-- The search of `timers_run` and of `timer_thread_func`, from a link on: the first timer with
`timer->expires < jiffies`. -/
def expiredFrom (k : Kernel T C) : ℕ → Option (LinkRef T C) → Outcome Fault (Option (TimerRef T C))
  | 0, _ => .timeout
  | _ + 1, none => .fault .nullDeref
  | _ + 1, some .timersList => .ok none
  | fuel + 1, some (.timer x) =>
    if k.expires x < k.jiffies then .ok (some x)
    else k.expiredFrom fuel (k.links.next (.timer x))
  | _ + 1, some _ => .fault .panic

/-- The search of the whole list. -/
def expired (k : Kernel T C) (fuel : ℕ) : Outcome Fault (Option (TimerRef T C)) :=
  k.expiredFrom fuel (k.links.next .timersList)

/-- `timers_run`. -/
def timersRun (k : Kernel T C) (fuel : ℕ) : Outcome Fault (Kernel T C) := do
  match ← k.expired fuel with
  | some _ => do
    let t ← LinkList.deref k.timerThread
    k.threadWakeup t
  | none => return k

/-- `THREAD_QUANTUM`. -/
def threadQuantum : Word := 4000

/-- `sched_timer`; `timestamp` and `now` are the two values of `timer_get`. -/
def schedTimer (k : Kernel T C) (timestamp now : Word) (fuel : ℕ) : Outcome Fault (Kernel T C) := do
  let k := { k with jiffies := k.jiffies + 1 }
  let k ← k.timersRun fuel
  let c ← LinkList.deref k.current
  if timestamp - k.scheduled c ≥ threadQuantum then k.schedule now else return k

/-- `timer_destroy` returns, and `thread_sleep` or `thread_usleep` with it when that is the caller. -/
def destroyReturns (x : TimerRef T C) (remains : Option (SleepUnit × Word)) : List (Event T C) :=
  .destroyed x :: match remains with
    | some (u, r) => [.slept (u.ofJiffies r)]
    | none => []

/-- The loops of `timer_destroy`, from the top of the outer one or (`wait`) of the inner one.  The
current thread either stays in `thread_yield` or returns to its own code. -/
def timerDestroyFrom (x : TimerRef T C) (remains : Option (SleepUnit × Word)) (now : Word) :
    ℕ → Bool → Kernel T C → Outcome Fault (Kernel T C × List (Event T C))
  | 0, _, _ => .timeout
  | fuel + 1, false, k => do
    let pending ← k.timerPending x
    let k ← if pending then k.timerRemove x else .ok k
    timerDestroyFrom x remains now fuel true k
  | fuel + 1, true, k => do
    let c ← LinkList.deref k.current
    if k.running x then
      let k ← { k with pc := Function.update k.pc c (.destroy x remains) }.schedule now
      return (k, [])
    else
      let pending ← k.timerPending x
      if pending then timerDestroyFrom x remains now fuel false k
      else return ({ k with pc := Function.update k.pc c .run }, destroyReturns x remains)

/-! ### `proc/thread.c` -/

/-- `thread_create` after it has the memory: the fields are set and the thread is inserted. -/
def threadCreateInsert (k : Kernel T C) (t : T) : Outcome Fault (Kernel T C) := do
  let l ← linkInit k.links (some (.thread t))
  let k := { k with
    links := l
    retval := Function.update k.retval t 0
    scheduled := Function.update k.scheduled t 0
    state := Function.update k.state t .ready
    joiner := Function.update k.joiner t none
    pc := Function.update k.pc t .run
    inserted := Function.update k.inserted t true
    passed := Function.update k.passed t none }
  k.schedInsert t

/-- `thread_sleep` and `thread_usleep` up to `schedule`. -/
def threadSleep (k : Kernel T C) (u : SleepUnit) (n now : Word) : Outcome Fault (Kernel T C) := do
  let timeout := u.toJiffies n
  let c ← LinkList.deref k.current
  let k := { k with state := Function.update k.state c .sleeping }
  let k ← k.schedRemove c
  let k ← k.timerInitJiffies (.thread c) timeout (some (.threadTimeout c))
  let k ← k.timerStart (.thread c)
  { k with pc := Function.update k.pc c (.sleep u) }.schedule now

/-- `thread_finish` up to `schedule`. -/
def threadFinish (k : Kernel T C) (retval now : Word) : Outcome Fault (Kernel T C) := do
  let c ← LinkList.deref k.current
  let k := { k with state := Function.update k.state c .zombie }
  let k ← k.schedRemove c
  let k := { k with
    retval := Function.update k.retval c retval
    passed := Function.update k.passed c (some retval) }
  let k ← match k.joiner c with
    | some j => k.threadWakeup j
    | none => .ok k
  { k with pc := Function.update k.pc c .finished }.schedule now

/-- The end of `thread_join`: the value is stored, `thread_destroy`, and `EOK`. -/
def threadReap (k : Kernel T C) (c t : T) : Kernel T C × List (Event T C) :=
  ({ k with
      pc := Function.update k.pc c .run
      block := Function.update k.block t false
      inserted := Function.update k.inserted t false
      initialised := Function.update k.initialised (.thread t) false },
    [.joined t (k.retval t)])

/-- `thread_can_join`. -/
def threadCanJoin (k : Kernel T C) (t : T) : Bool := decide (k.current ≠ some t) && (k.joiner t).isNone

/-- `thread_join` up to `thread_suspend`, or to the end when it does not wait. -/
def threadJoin (k : Kernel T C) (t : T) (now : Word) :
    Outcome Fault (Kernel T C × List (Event T C)) := do
  let c ← LinkList.deref k.current
  if k.threadCanJoin t then
    if k.state t ≠ .zombie then
      let k := { k with
        joiner := Function.update k.joiner t (some c)
        pc := Function.update k.pc c (.join t) }
      let k ← k.threadSuspend now
      return (k, [])
    else return k.threadReap c t
  else return (k, [.invalid t])

/-! ### `timer_thread_func` -/

/-- The first section of the loop: an expired timer is taken from the list. -/
def timerSelect (k : Kernel T C) (fuel : ℕ) : Outcome Fault (Kernel T C) := do
  match ← k.expired fuel with
  | none => return { k with loop := .clear none }
  | some x => do
    let k ← k.timerRemove x
    let k := { k with running := Function.update k.running x true }
    match k.handler x with
    | some h => return { k with
        loop := .handler x h
        invoked := (x, k.starts x) :: k.invoked }
    | none => return { k with loop := .clear (some x) }

/-- The second section of the loop. -/
def timerClear (k : Kernel T C) : Option (TimerRef T C) → Kernel T C
  | some x => { k with running := Function.update k.running x false, loop := .select }
  | none => { k with loop := .suspend }

/-- A client releases the memory of a timer, which is used for something else from then on. -/
def timerRelease (k : Kernel T C) (x : TimerRef T C) (m : TimerMemory T C) : Kernel T C :=
  { k with
    links := (k.links.setPrev (.timer x) m.prev).setNext (.timer x) m.next
    timeout := Function.update k.timeout x m.timeout
    expires := Function.update k.expires x m.expires
    running := Function.update k.running x m.running
    handler := Function.update k.handler x m.handler
    initialised := Function.update k.initialised x false }

/-! ### Continuing a thread with disabled interrupts -/

/-- The thread that was switched to continues where it was. -/
def resume (k : Kernel T C) (now : Word) (fuel : ℕ) :
    Outcome Fault (Kernel T C × List (Event T C)) := do
  let c ← LinkList.deref k.current
  match k.pc c with
  | .join t => return k.threadReap c t
  | .sleep u =>
    timerDestroyFrom (.thread c) (some (u, k.expires (.thread c) - k.jiffies)) now fuel false k
  | .destroy x remains => timerDestroyFrom x remains now fuel true k
  | .finished => .fault .panic
  | .run => return (k, [])
  | .create _ => return (k, [])

end Kernel

end Kalisto
