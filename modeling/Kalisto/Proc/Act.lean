import Kalisto.Proc.Thread

/-!
# The sections that threads and interrupts run

`Act` lists what can happen next: a call by the code of a thread, up to the point where the thread
waits or returns; the continuation of a thread that was switched to inside a call; a section of the
timer thread; a tick.  `Act.run` is the code, `Kernel.Admits` says where each of them can happen and
what the callers promise.

`Run ok k evs` is a run from the boot of `bsp_start` to the state `k`, with what it made known; `ok`
is what is asked of the steps besides.
-/

namespace Kalisto

open LinkList

variable {T C : Type} [DecidableEq T] [DecidableEq C]

/-- **What can happen next.**  `now` and `timestamp` are values of `timer_get`. -/
inductive Act (T C : Type) where
  /-- `thread_create` gets the memory of the thread -/
  | createAlloc (t : T)
  /-- `thread_create` sets the fields and inserts the thread -/
  | createInsert
  | yield (now : Word)
  | suspend (now : Word)
  | wakeup (t : T)
  | sleep (u : SleepUnit) (n now : Word)
  | finish (retval now : Word)
  | join (t : T) (now : Word)
  /-- `timer_init_jiffies`, with or without a handler -/
  | timerInit (c : C) (timeout : Word) (handler : Bool)
  | timerStart (c : C)
  | timerDestroy (c : C) (now : Word)
  /-- a client releases the memory of a timer -/
  | timerRelease (c : C) (m : TimerMemory T C)
  /-- the current thread was switched to inside a call and continues, with disabled interrupts -/
  | resume (now : Word)
  | timerSelect
  /-- the timer thread calls `thread_timeout_handler` -/
  | timerTimeout
  /-- the handler of a client returns -/
  | timerReturn
  | timerClear
  | timerSuspend (now : Word)
  | tick (timestamp now : Word)

namespace Kernel

/-- The thread continues with enabled interrupts. -/
def enabled : Pc T C → Bool
  | .run | .create _ => true
  | _ => false

/-- The current thread runs code of a client: it is not the timer thread, or that is in a handler. -/
def Client (k : Kernel T C) (c : T) : Prop :=
  k.current = some c ∧ k.pc c = .run ∧ (k.timerThread = some c → ∃ x, k.loop = .handler x .client)

/-- The current thread is the timer thread, at this place of its loop. -/
def AtLoop (k : Kernel T C) (p : TimerLoop T C) : Prop :=
  ∃ c, k.current = some c ∧ k.timerThread = some c ∧ k.pc c = .run ∧ k.loop = p

/-- **Where an act can happen, and what its caller promises.**  Threads that are named exist; a timer
that is initialised is neither pending nor running, one that is started is initialised and not
pending, one that is destroyed is initialised, and one whose memory is released is neither pending nor
running and in no call of `timer_destroy`.  The idle thread never waits or finishes, and the handler of
a timer returns. -/
def Admits (k : Kernel T C) : Act T C → Prop
  | .createAlloc t => (∃ c, k.Client c) ∧ k.block t = false
  | .createInsert => ∃ c t, k.current = some c ∧ k.pc c = .create t
  | .yield _ => ∃ c, k.Client c
  | .suspend _ => ∃ c, k.Client c ∧ k.idle ≠ some c
  | .wakeup t => (∃ c, k.Client c) ∧ k.inserted t = true
  | .sleep _ _ _ => ∃ c, k.Client c ∧ k.idle ≠ some c
  | .finish _ _ => ∃ c, k.Client c ∧ k.idle ≠ some c ∧ k.timerThread ≠ some c
  | .join t _ => (∃ c, k.Client c ∧ k.idle ≠ some c) ∧ k.inserted t = true
  | .timerInit c _ _ => (∃ t, k.Client t) ∧ (k.initialised (.client c) = true →
      k.timerPending (.client c) = .ok false ∧ k.running (.client c) = false)
  | .timerStart c => (∃ t, k.Client t) ∧ k.initialised (.client c) = true ∧
      k.timerPending (.client c) = .ok false
  | .timerDestroy c _ => (∃ t, k.Client t) ∧ k.initialised (.client c) = true
  | .timerRelease c _ => (∃ t, k.Client t) ∧ k.initialised (.client c) = true ∧
      k.timerPending (.client c) = .ok false ∧ k.running (.client c) = false ∧
      ∀ t r, k.pc t ≠ .destroy (.client c) r
  | .resume _ => ∃ c, k.current = some c ∧ enabled (k.pc c) = false
  | .timerSelect => k.AtLoop .select
  | .timerTimeout => ∃ x t, k.AtLoop (.handler x (.threadTimeout t))
  | .timerReturn => ∃ x, k.AtLoop (.handler x .client)
  | .timerClear => ∃ x, k.AtLoop (.clear x)
  | .timerSuspend _ => k.AtLoop .suspend
  | .tick _ _ => ∃ c, k.current = some c ∧ enabled (k.pc c) = true

/-- `thread_wakeup` is called on the thread: by a client, or by `timers_run` on the timer thread.
The other two calls, of a thread that finishes and of `thread_timeout_handler`, are not listed. -/
def Aims (k : Kernel T C) : Act T C → T → Prop
  | .wakeup t, u => t = u
  | .tick _ _, u => k.timerThread = some u ∧
      ∃ x, Outcome.Returns ({ k with jiffies := k.jiffies + 1 }.expired) (some x)
  | _, _ => False

/-- The thread waits in `thread_join`. -/
def BlockedInJoin (k : Kernel T C) (u t : T) : Prop := k.pc u = .join t ∧ k.state u = .sleeping

/-- No `thread_wakeup` is aimed at a thread that waits in `thread_join`. -/
def NoStray (k : Kernel T C) (a : Act T C) : Prop := ∀ u t, k.Aims a u → ¬ k.BlockedInJoin u t

/-- **The code of an act.** -/
def step (k : Kernel T C) (a : Act T C) (fuel : ℕ) : Outcome Fault (Kernel T C × List (Event T C)) :=
  match a with
  | .createAlloc t => do
    let c ← LinkList.deref k.current
    return ({ k with
      pc := Function.update k.pc c (.create t)
      block := Function.update k.block t true }, [.created t])
  | .createInsert => do
    let c ← LinkList.deref k.current
    match k.pc c with
    | .create t => do
      let k ← k.threadCreateInsert t
      return ({ k with pc := Function.update k.pc c .run }, [])
    | _ => return (k, [])
  | .yield now => do
    let k ← k.schedule now
    return (k, [])
  | .suspend now => do
    let k ← k.threadSuspend now
    return (k, [])
  | .wakeup t => do
    let k ← k.threadWakeup t
    return (k, [])
  | .sleep u n now => do
    let k ← k.threadSleep u n now
    return (k, [])
  | .finish retval now => do
    let k ← k.threadFinish retval now
    return (k, [])
  | .join t now => k.threadJoin t now
  | .timerInit c timeout handler => do
    let k ← k.timerInitJiffies (.client c) timeout (if handler then some .client else none)
    return (k, [])
  | .timerStart c => do
    let k ← k.timerStart (.client c)
    return (k, [])
  | .timerDestroy c now => timerDestroyFrom (.client c) none now fuel false k
  | .timerRelease c m => return (k.timerRelease (.client c) m, [])
  | .resume now => k.resume now fuel
  | .timerSelect => do
    let k ← k.timerSelect fuel
    return (k, [])
  | .timerTimeout =>
    match k.loop with
    | .handler x (.threadTimeout t) => do
      let k ← k.threadWakeup t
      return ({ k with loop := .clear (some x) }, [])
    | _ => return (k, [])
  | .timerReturn =>
    match k.loop with
    | .handler x _ => return ({ k with loop := .clear (some x) }, [])
    | _ => return (k, [])
  | .timerClear =>
    match k.loop with
    | .clear x => return (k.timerClear x, [])
    | _ => return (k, [])
  | .timerSuspend now => do
    let k ← { k with loop := .select }.threadSuspend now
    return (k, [])
  | .tick timestamp now => do
    let k ← k.schedTimer timestamp now fuel
    return (k, [])

/-- `thread_create` before there are threads. -/
def bootCreate (k : Kernel T C) (t : T) : Outcome Fault (Kernel T C) :=
  { k with block := Function.update k.block t true }.threadCreateInsert t

/-- **`bsp_start`**: the lists, the timer thread, the idle thread, the main thread, and the switch to
it. -/
def bspStart (k : Kernel T C) (timer idle main : T) : Outcome Fault (Kernel T C) := do
  let k := { k with current := none }
  let l ← listInit k.links (some .runnableList)
  let l ← listInit l (some .timersList)
  let k := { k with links := l }
  let k ← k.bootCreate timer
  let k := { k with timerThread := some timer }
  let k ← k.bootCreate idle
  let k := { k with idle := some idle }
  let k ← k.bootCreate main
  return k.threadSwitch main

/-- Memory of any content, with no records of the past. -/
structure Off (k : Kernel T C) : Prop where
  pc : ∀ t, k.pc t = .run
  loop : k.loop = .select
  block : ∀ t, k.block t = false
  inserted : ∀ t, k.inserted t = false
  initialised : ∀ x, k.initialised x = false
  invoked : k.invoked = []
  foundEmpty : k.foundEmpty = false

/-- **Runs.**  `ok` is asked of every step; the events are listed with the last one first. -/
inductive Run (ok : Kernel T C → Act T C → Prop) : Kernel T C → List (Event T C) → Prop
  | boot {k k' : Kernel T C} {timer idle main : T} : k.Off → timer ≠ idle → timer ≠ main →
      idle ≠ main → k.bspStart timer idle main = .ok k' →
      Run ok k' [.created main, .created idle, .created timer]
  | step {k k' : Kernel T C} {a : Act T C} {evs new : List (Event T C)} : Run ok k evs → k.Admits a →
      ok k a → Outcome.Returns (k.step a) (k', new) → Run ok k' (new ++ evs)

end Kernel

end Kalisto
