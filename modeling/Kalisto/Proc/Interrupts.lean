import Kalisto.Mm.FrameOwnership
import Kalisto.Mm.HeapRuns
import Kalisto.Mm.Interrupts
import Kalisto.Proc.ThreadRuns

/-!
# The interrupt enable bit in the calls of the kernel

A call of the kernel by one thread, from its beginning to its return, with the other threads running
wherever they can: after another thread was switched to, and where interrupts are enabled.  What the
others leave is an argument (`World.meanwhile`), and so are the answers of `malloc` and of the frame
allocator.  `cpu_switch_context` restores the Status register of each thread.

The parts of the code that do not touch the bit are those of the modules before; here they stand
between `query_and_disable_interrupts` and `conditionally_enable_interrupts`, nested as in the source.

* `Call` lists the functions, `Call.run` is their code;
* `interrupts_preserved` — a call that returns leaves the bit as it was, except that `thread_create`
  and `process_create` return with interrupts disabled when `vmm_create` gets no memory.
-/

namespace Kalisto

open LinkList

/-! ### One thread and the others -/

/-- A `link_t` of a process or of a user space thread. -/
inductive ProcessLink where
  | uthreadList (p : ℕ)
  | umutexList (p : ℕ)
  | uthread (u : ℕ)
  deriving DecidableEq

/-- What the threads share.  The bit is the one of `machine`, the current thread the one of
`kernel`. -/
structure Shared (C : Type) where
  machine : Machine
  kernel : Kernel ℕ C
  heap : HeapState
  /-- `process->main_uthread` -/
  mainUthread : ℕ → ℕ
  /-- `uthread->thread` -/
  uthreadThread : ℕ → ℕ
  processLinks : Links ProcessLink

/-- The world of the calling thread. -/
structure World (C : Type) extends Shared C where
  /-- what it finds whenever other threads have run -/
  meanwhile : List (Shared C)
  /-- the values of `timer_get` -/
  count : ℕ → Word

/-- The interrupt enable bit. -/
def World.ie {C : Type} (w : World C) : Bool := w.machine.cpu.ie

/-- `current_thread[cpuid ()]`. -/
def World.current {C : Type} (w : World C) : Option ℕ := w.kernel.current

/-- The machine, with the current thread. -/
def World.view {C : Type} (w : World C) : Machine := { w.machine with current := w.kernel.current }

/-- Code of the kernel, as the calling thread runs it. -/
abbrev KernelM (C : Type) := StateT (World C) (Outcome Fault)

namespace KernelM

variable {C : Type} [DecidableEq C]

/-- The others have run and left `s`; thread `c` continues with its own Status register. -/
def back (w : World C) (c : Option ℕ) (s : Shared C) (rest : List (Shared C)) : World C where
  toShared := { s with machine := s.machine.withIe w.ie, kernel := { s.kernel with current := c } }
  meanwhile := rest
  count := w.count

/-- Other threads run, if they do. -/
def preempt : KernelM C Unit := fun w =>
  match w.meanwhile with
  | [] => .ok ((), w)
  | s :: rest => .ok ((), back w w.current s rest)

/-- `query_and_disable_interrupts`. -/
def queryAndDisableInterrupts : KernelM C Bool := fun w =>
  .ok (w.ie, { w with machine := w.machine.withIe false })

/-- `conditionally_enable_interrupts`; from then on other threads can run. -/
def conditionallyEnableInterrupts (state : Bool) : KernelM C Unit :=
  if state then do
    modify fun w => { w with machine := w.machine.withIe true }
    preempt
  else pure ()

/-- The code does not return. -/
def stuck {α : Type} : KernelM C α := fun _ => .timeout

/-- Code on the threads and the timers that does not touch the bit. -/
def onKernel (f : Kernel ℕ C → Outcome Fault (Kernel ℕ C)) : KernelM C Unit := fun w => do
  let k ← f w.kernel
  return ((), { w with kernel := k })

/-- Something is read from the threads and the timers. -/
def fromKernel {α : Type} (f : Kernel ℕ C → Outcome Fault α) : KernelM C α := fun w => do
  let a ← f w.kernel
  return (a, w)

/-- Code on the lists of a process. -/
def onProcessLinks (f : Links ProcessLink → Outcome Fault (Links ProcessLink)) : KernelM C Unit :=
  fun w => do
    let l ← f w.processLinks
    return ((), { w with processLinks := l })

/-- Code on the machine, with its own sections. -/
def onMachine {α : Type} (f : Machine → Except Fault (Machine × α)) : KernelM C α := fun w =>
  match f w.view with
  | .ok (m, a) => .ok (a, { w with machine := m })
  | .error e => .fault e

/-- Code on the heap, with its own sections. -/
def onHeap {α : Type} (f : HeapM α) : KernelM C α := fun w => do
  let (a, h) ← f { w.heap with ie := w.ie }
  return (a, { w with heap := h, machine := w.machine.withIe h.ie })

/-- `timer_get`. -/
def timerGet : KernelM C Word := fun w =>
  .ok (w.count 0, { w with count := fun n => w.count (n + 1) })

/-! ### `sched/sched.c` -/

/-- `sched_insert`. -/
def schedInsert (t : ℕ) : KernelM C Unit := do
  let state ← queryAndDisableInterrupts
  onKernel fun k => k.schedInsert t
  conditionallyEnableInterrupts state

/-- `sched_remove`. -/
def schedRemove (t : ℕ) : KernelM C Unit := do
  let state ← queryAndDisableInterrupts
  onKernel fun k => k.schedRemove t
  conditionallyEnableInterrupts state

/-- `cpu_switch_context`, from thread `old` to thread `new`.  The stack of before the first thread is
never switched back to. -/
def cpuSwitchContext (old : Option ℕ) (new : ℕ) (asid : BitVec 8) : KernelM C Unit := fun w =>
  match old with
  | none => .timeout
  | some c =>
    if c = new then
      .ok ((), { w with machine.cpu := Machine.cpuSwitchContext w.machine.cpu asid w.ie })
    else
      match w.meanwhile with
      | [] => .timeout
      | s :: rest => .ok ((), back w (some c) s rest)

/-- `thread_switch`. -/
def threadSwitch (t : ℕ) : KernelM C Unit := do
  let state ← queryAndDisableInterrupts
  let current := (← get).current
  onKernel fun k => .ok (k.threadSwitch t)
  let m := (← get).machine
  cpuSwitchContext current t (m.vmm (m.threadVmm t)).asid
  conditionallyEnableInterrupts state

/-- The body of `schedule`, for the link that `list_rotate` gave. -/
def scheduleLink : Option (LinkRef ℕ C) → KernelM C Unit
  | none => pure ()
  | some link => do
    let t ← fromKernel fun _ => Kernel.threadItem link
    let now ← timerGet
    onKernel fun k => .ok { k with scheduled := Function.update k.scheduled t now }
    threadSwitch t

/-- `schedule`. -/
def schedule : KernelM C Unit := do
  let state ← queryAndDisableInterrupts
  let (link, l) ← fromKernel fun k => listRotate k.links (some .runnableList)
  onKernel fun k => .ok { k with links := l }
  scheduleLink link
  conditionallyEnableInterrupts state

/-! ### `time/timer.c` -/

/-- `timer_start`. -/
def timerStart (x : TimerRef ℕ C) : KernelM C Unit := do
  let status ← queryAndDisableInterrupts
  onKernel fun k => k.timerStart x
  conditionallyEnableInterrupts status

/-- The loops of `timer_destroy`, from the top of the outer one or (`wait`) of the inner one. -/
def timerDestroyLoop (x : TimerRef ℕ C) : ℕ → Bool → KernelM C Unit
  | 0, _ => stuck
  | fuel + 1, false => do
    if ← fromKernel fun k => k.timerPending x then onKernel fun k => k.timerRemove x
    timerDestroyLoop x fuel true
  | fuel + 1, true => do
    if (← get).kernel.running x then
      -- `thread_yield`
      schedule
      timerDestroyLoop x fuel true
    else if ← fromKernel fun k => k.timerPending x then timerDestroyLoop x fuel false
    else pure ()

/-- `timer_destroy`. -/
def timerDestroy (x : TimerRef ℕ C) (fuel : ℕ) : KernelM C Unit := do
  let status ← queryAndDisableInterrupts
  timerDestroyLoop x fuel false
  conditionallyEnableInterrupts status

/-! ### The heap, as its callers see it -/

/-- A call of `malloc` or of `free` inside another function: a section of its own. -/
def heapCall : KernelM C Unit := do
  let state ← queryAndDisableInterrupts
  conditionallyEnableInterrupts state

/-! ### `proc/thread.c` -/

/-- `thread_get_current`. -/
def threadGetCurrent : KernelM C (Option ℕ) := do
  let state ← queryAndDisableInterrupts
  let current := (← get).current
  conditionallyEnableInterrupts state
  return current

/-- `thread_suspend`. -/
def threadSuspend : KernelM C Unit := do
  let state ← queryAndDisableInterrupts
  let c ← fromKernel fun k => LinkList.deref k.current
  onKernel fun k => .ok { k with state := Function.update k.state c .sleeping }
  schedRemove c
  schedule
  conditionallyEnableInterrupts state

/-- `thread_wakeup`. -/
def threadWakeup (t : ℕ) : KernelM C Errno := do
  let state ← queryAndDisableInterrupts
  if (← get).kernel.state t = .sleeping then
    onKernel fun k => .ok { k with state := Function.update k.state t .ready }
    schedInsert t
  conditionallyEnableInterrupts state
  return .eok

/-- `thread_sleep` and `thread_usleep`. -/
def threadSleep (u : SleepUnit) (n : Word) (fuel : ℕ) : KernelM C Word := do
  let timeout := u.toJiffies n
  let state ← queryAndDisableInterrupts
  let c ← fromKernel fun k => LinkList.deref k.current
  onKernel fun k => .ok { k with state := Function.update k.state c .sleeping }
  schedRemove c
  onKernel fun k => k.timerInitJiffies (.thread c) timeout (some (.threadTimeout c))
  timerStart (.thread c)
  schedule
  let k := (← get).kernel
  let remains := k.expires (.thread c) - k.jiffies
  timerDestroy (.thread c) fuel
  conditionallyEnableInterrupts state
  return u.ofJiffies remains

/-- `thread_can_join`. -/
def threadCanJoin (t : ℕ) : KernelM C Bool := do
  let state ← queryAndDisableInterrupts
  let current := (← get).current
  conditionallyEnableInterrupts state
  if current = some t then return false
  else return ((← get).kernel.joiner t).isNone

/-- `thread_destroy`. -/
def threadDestroy : KernelM C Unit := do
  heapCall
  heapCall

/-- `thread_join`: `EINVAL`, or the value of the thread. -/
def threadJoin (t : ℕ) : KernelM C (Except Errno Word) := do
  let status ← queryAndDisableInterrupts
  let current := (← get).current
  if ← threadCanJoin t then
    if (← get).kernel.state t ≠ .zombie then
      onKernel fun k => .ok { k with joiner := Function.update k.joiner t current }
      threadSuspend
    let retval := (← get).kernel.retval t
    threadDestroy
    conditionallyEnableInterrupts status
    return .ok retval
  else
    conditionallyEnableInterrupts status
    return .error .einval

/-! ### `mm/vmm.c` -/

/-- The map of the current thread, `thread_get_current ()->vmm`. -/
def currentVmm : KernelM C Vmm := do
  let t ← threadGetCurrent
  let c ← fromKernel fun _ => LinkList.deref t
  let m := (← get).machine
  return m.vmm (m.threadVmm c)

/-- `vma_check_user`. -/
def vmaCheckUser (addr size : Word) : KernelM C Bool := do
  let state ← queryAndDisableInterrupts
  let vmm ← currentVmm
  conditionallyEnableInterrupts state
  return Kalisto.vmaCheckUser vmm addr size

/-- `vmm_mapping_find`. -/
def vmmMappingFind (virt : Word) : KernelM C (Except Errno Word) := do
  let state ← queryAndDisableInterrupts
  let vmm ← currentVmm
  conditionallyEnableInterrupts state
  return Kalisto.vmmMappingFind vmm virt

/-- `vmm_create`, when its `malloc` answers `mem`. -/
def vmmCreate (mem : Bool) : KernelM C (Except Errno ℕ) := do
  heapCall
  onMachine fun m => .ok (m.vmmCreate mem)

end KernelM

/-! ### Creating threads and processes -/

/-- The answers to the three calls of `malloc` in `thread_create`: for the control block, for the
stack, and for the map inside `vmm_create`. -/
structure ThreadAnswers where
  thread : Option ℕ
  stack : Bool
  vmm : Bool

namespace KernelM

variable {C : Type} [DecidableEq C]

/-- The fields that `thread_create` sets, up to `sched_insert`. -/
def threadInit (k : Kernel ℕ C) (t : ℕ) : Outcome Fault (Kernel ℕ C) := do
  let l ← linkInit k.links (some (.thread t))
  return { k with
    links := l
    retval := Function.update k.retval t 0
    scheduled := Function.update k.scheduled t 0
    state := Function.update k.state t .ready
    joiner := Function.update k.joiner t none }

/-- The map of a new thread: a new one when there is no current thread or the caller asks for it
(`TF_NEW_VMM`), else the creator's. -/
def threadCreateVmm (newVmm memVmm : Bool) : KernelM C (Except Errno ℕ) := do
  match (← get).current with
  | none => vmmCreate memVmm
  | some c =>
    if newVmm then vmmCreate memVmm
    else return .ok ((← get).machine.threadVmm c)

/-- `thread_create`, once it has the control block `t` and the stack. -/
def threadCreateAt (newVmm memVmm : Bool) (t : ℕ) : KernelM C (Except Errno ℕ) := do
  let state ← queryAndDisableInterrupts
  match ← threadCreateVmm newVmm memVmm with
  | .error rc =>
    -- the stack and the control block are released; `state` is not restored
    heapCall
    heapCall
    return .error rc
  | .ok v =>
    modify fun w => { w with machine.threadVmm := Function.update w.machine.threadVmm t v }
    conditionallyEnableInterrupts state
    onKernel fun k => threadInit k t
    schedInsert t
    return .ok t

/-- `thread_create`: the new thread, or the error. -/
def threadCreate (newVmm : Bool) (mem : ThreadAnswers) : KernelM C (Except Errno ℕ) := do
  heapCall
  match mem.thread with
  | none => return .error .enomem
  | some t =>
    heapCall
    if mem.stack then threadCreateAt newVmm mem.vmm t
    else
      heapCall
      return .error .enomem

/-- The fields that `process_create` sets in the process `p` and its user space thread `u`. -/
def processInit (p u : ℕ) : KernelM C Unit := do
  modify fun w => { w with mainUthread := Function.update w.mainUthread p u }
  onProcessLinks fun l => listInit l (some (.uthreadList p))
  onProcessLinks fun l => listInit l (some (.umutexList p))
  onProcessLinks fun l => listAppend l (some (.uthreadList p)) (some (.uthread u))

/-- `process_create`, once it has the two control blocks. -/
def processCreateAt (p u : ℕ) (mem : ThreadAnswers) : KernelM C (Except Errno ℕ) := do
  processInit p u
  match ← threadCreate true mem with
  | .error rc =>
    onProcessLinks fun l => listRemove l (some (.uthread u))
    heapCall
    heapCall
    return .error rc
  | .ok t =>
    modify fun w => { w with uthreadThread := Function.update w.uthreadThread u t }
    return .ok p

/-- `process_create`: the new process, or the error.  `memProcess` and `memUthread` are the answers
of `malloc` for the two control blocks. -/
def processCreate (memProcess memUthread : Option ℕ) (mem : ThreadAnswers) :
    KernelM C (Except Errno ℕ) := do
  heapCall
  match memProcess with
  | none => return .error .enomem
  | some p =>
    heapCall
    match memUthread with
    | none =>
      heapCall
      return .error .enomem
    | some u => processCreateAt p u mem

/-- `process_join`. -/
def processJoin (p : ℕ) : KernelM C (Except Errno Word) := do
  let state ← queryAndDisableInterrupts
  let w ← get
  conditionallyEnableInterrupts state
  threadJoin (w.uthreadThread (w.mainUthread p))

end KernelM

/-! ### The calls -/

/-- **The calls of the kernel**, with their arguments and the answers of the allocators. -/
inductive Call (C : Type) where
  | malloc (heapList : ℕ) (answer : ℕ → Option ℕ) (size : ℕ)
  | free (answer : ℕ → ℕ → Errno) (addr : ℕ)
  | vmaMap (va size flags : Word) (answer : Except Errno Word)
  | vmaUnmap (va : Word) (answer : Errno)
  | vmaCheckUser (addr size : Word)
  | vmmCreate (mem : Bool)
  | vmmMappingFind (virt : Word)
  | tlbFlush (addr : Word)
  | threadCreate (newVmm : Bool) (mem : ThreadAnswers)
  | threadSuspend
  | threadWakeup (t : ℕ)
  | threadSleep (sec : Word)
  | threadUsleep (usec : Word)
  | threadJoin (t : ℕ)
  | schedInsert (t : ℕ)
  | schedRemove (t : ℕ)
  | schedule
  | timerStart (x : TimerRef ℕ C)
  | timerDestroy (x : TimerRef ℕ C)
  | processCreate (memProcess memUthread : Option ℕ) (mem : ThreadAnswers)
  | processJoin (p : ℕ)

namespace Call

variable {C : Type} [DecidableEq C]

open KernelM

/-- **The code of a call.**  The loops run for at most `fuel` iterations. -/
def code (fuel : ℕ) : Call C → KernelM C Unit
  | malloc heapList answer size => do let _ ← onHeap (HeapM.malloc heapList answer size fuel)
  | free answer addr => onHeap (HeapM.free answer addr)
  | vmaMap va size flags answer => do let _ ← onMachine fun m => m.vmaMap va size flags answer
  | vmaUnmap va answer => do let _ ← onMachine fun m => m.vmaUnmap va answer
  | vmaCheckUser addr size => do let _ ← KernelM.vmaCheckUser addr size
  | vmmCreate mem => do let _ ← KernelM.vmmCreate mem
  | vmmMappingFind virt => do let _ ← KernelM.vmmMappingFind virt
  | tlbFlush addr => onMachine fun m => .ok ({ m with cpu := m.cpu.tlbFlush addr }, ())
  | threadCreate newVmm mem => do let _ ← KernelM.threadCreate newVmm mem
  | threadSuspend => KernelM.threadSuspend
  | threadWakeup t => do let _ ← KernelM.threadWakeup t
  | threadSleep sec => do let _ ← KernelM.threadSleep .sec sec fuel
  | threadUsleep usec => do let _ ← KernelM.threadSleep .usec usec fuel
  | threadJoin t => do let _ ← KernelM.threadJoin t
  | schedInsert t => KernelM.schedInsert t
  | schedRemove t => KernelM.schedRemove t
  | schedule => KernelM.schedule
  | timerStart x => KernelM.timerStart x
  | timerDestroy x => KernelM.timerDestroy x fuel
  | processCreate memProcess memUthread mem => do
    let _ ← KernelM.processCreate memProcess memUthread mem
  | processJoin p => do let _ ← KernelM.processJoin p

end Call

/-! ### Single statements -/

namespace KernelM

variable {C : Type}

theorem clears_queryAndDisableInterrupts :
    Clears World.ie (queryAndDisableInterrupts : KernelM C Bool) := by
  intro w b w' h
  cases h
  exact ⟨rfl, rfl⟩

@[simp] theorem keeps_preempt : Keeps World.ie (preempt : KernelM C Unit) := by
  intro w a w' h
  unfold preempt at h
  split at h
  · cases h
    rfl
  · cases h
    rfl

theorem keeps_preempt_current : Keeps World.current (preempt : KernelM C Unit) := by
  intro w a w' h
  unfold preempt at h
  split at h
  · cases h
    rfl
  · cases h
    rfl

theorem ends_conditionallyEnableInterrupts (b : Bool) :
    Ends World.ie b (conditionallyEnableInterrupts b : KernelM C Unit) := by
  intro w a w' hw h
  cases b with
  | false =>
    cases h
    exact hw
  | true =>
    obtain ⟨_, w₁, h1, h2⟩ := StateT.bind_eq_ok.mp h
    cases h1
    exact keeps_preempt _ _ _ h2

@[simp] theorem keeps_stuck {α : Type} : Keeps World.ie (stuck : KernelM C α) := by
  intro w a w' h
  cases h

@[simp] theorem keeps_onKernel (f : Kernel ℕ C → Outcome Fault (Kernel ℕ C)) :
    Keeps World.ie (onKernel f) := by
  intro w a w' h
  obtain ⟨k, -, h2⟩ := Outcome.bind_eq_ok.mp h
  cases h2
  rfl

@[simp] theorem keeps_fromKernel {α : Type} (f : Kernel ℕ C → Outcome Fault α) :
    Keeps World.ie (fromKernel f) := by
  intro w a w' h
  obtain ⟨k, -, h2⟩ := Outcome.bind_eq_ok.mp h
  cases h2
  rfl

@[simp] theorem keeps_onProcessLinks (f : Links ProcessLink → Outcome Fault (Links ProcessLink)) :
    Keeps World.ie (onProcessLinks f : KernelM C Unit) := by
  intro w a w' h
  obtain ⟨l, -, h2⟩ := Outcome.bind_eq_ok.mp h
  cases h2
  rfl

theorem keeps_onMachine {α : Type} {f : Machine → Except Fault (Machine × α)}
    (hf : ∀ m m' a, f m = .ok (m', a) → m'.cpu.ie = m.cpu.ie) :
    Keeps World.ie (onMachine f : KernelM C α) := by
  intro w a w' h
  unfold onMachine at h
  split at h
  · next m r hm =>
    cases h
    have hie := hf _ _ _ hm
    exact hie
  · cases h

theorem keeps_onHeap {α : Type} {f : HeapM α} (hf : Keeps HeapState.ie f) :
    Keeps World.ie (onHeap f : KernelM C α) := by
  intro w a w' h
  obtain ⟨⟨r, s⟩, h1, h2⟩ := Outcome.bind_eq_ok.mp h
  cases h2
  exact hf _ _ _ h1

@[simp] theorem keeps_timerGet : Keeps World.ie (timerGet : KernelM C Word) := by
  intro w a w' h
  cases h
  rfl

/-- Each thread gets its own Status register back. -/
@[simp] theorem keeps_cpuSwitchContext (old : Option ℕ) (new : ℕ) (asid : BitVec 8) :
    Keeps World.ie (cpuSwitchContext old new asid : KernelM C Unit) := by
  intro w a w' h
  unfold cpuSwitchContext at h
  split at h
  · cases h
  split at h
  · cases h
    rfl
  split at h
  · cases h
  · cases h
    rfl

/-! ### The sections -/

variable [DecidableEq C]

omit [DecidableEq C] in
/-- A section; the code after it keeps the bit. -/
theorem keeps_section {α : Type} {f : Bool → KernelM C α}
    (hf : ∀ state, Ends World.ie state (f state)) :
    Keeps World.ie (queryAndDisableInterrupts >>= f) :=
  Keeps.of_clears clears_queryAndDisableInterrupts hf

omit [DecidableEq C] in
/-- The end of a section. -/
theorem ends_section {α : Type} {g : Unit → KernelM C α} (state : Bool)
    (hg : ∀ a, Keeps World.ie (g a)) :
    Ends World.ie state (conditionallyEnableInterrupts state >>= g) :=
  Ends.then (ends_conditionallyEnableInterrupts state) hg

omit [DecidableEq C] in
@[simp] theorem keeps_heapCall : Keeps World.ie (heapCall : KernelM C Unit) :=
  keeps_section ends_conditionallyEnableInterrupts

omit [DecidableEq C] in
/-- Afterwards the current thread is the calling one again. -/
theorem keeps_heapCall_current : Keeps World.current (heapCall : KernelM C Unit) := by
  intro w a w' h
  obtain ⟨state, w₁, h1, h2⟩ := StateT.bind_eq_ok.mp h
  cases h1
  unfold conditionallyEnableInterrupts at h2
  split at h2
  · obtain ⟨_, w₂, h3, h4⟩ := StateT.bind_eq_ok.mp h2
    cases h3
    have hcurrent := keeps_preempt_current _ _ _ h4
    exact hcurrent
  · cases h2
    rfl

@[simp] theorem keeps_schedInsert (t : ℕ) : Keeps World.ie (schedInsert t : KernelM C Unit) := by
  refine keeps_section fun state => Ends.bind (keeps_onKernel _) fun _ => ?_
  exact ends_conditionallyEnableInterrupts state

@[simp] theorem keeps_schedRemove (t : ℕ) : Keeps World.ie (schedRemove t : KernelM C Unit) := by
  refine keeps_section fun state => Ends.bind (keeps_onKernel _) fun _ => ?_
  exact ends_conditionallyEnableInterrupts state

omit [DecidableEq C] in
@[simp] theorem keeps_threadSwitch (t : ℕ) : Keeps World.ie (threadSwitch t : KernelM C Unit) := by
  refine keeps_section fun state => ?_
  repeat with_reducible refine Ends.bind (by simp) fun _ => ?_
  exact ends_conditionallyEnableInterrupts state

omit [DecidableEq C] in
@[simp] theorem keeps_scheduleLink (link : Option (LinkRef ℕ C)) :
    Keeps World.ie (scheduleLink link) := by
  cases link with
  | none => exact keeps_pure ()
  | some link =>
    unfold scheduleLink
    repeat with_reducible refine Keeps.bind (by simp) fun _ => ?_
    exact keeps_threadSwitch _

@[simp] theorem keeps_schedule : Keeps World.ie (schedule : KernelM C Unit) := by
  refine keeps_section fun state => ?_
  repeat with_reducible refine Ends.bind (by simp) fun _ => ?_
  exact ends_conditionallyEnableInterrupts state

@[simp] theorem keeps_timerStart (x : TimerRef ℕ C) : Keeps World.ie (timerStart x) := by
  refine keeps_section fun status => Ends.bind (keeps_onKernel _) fun _ => ?_
  exact ends_conditionallyEnableInterrupts status

/-- The loops run with interrupts disabled, and `thread_yield` comes back that way. -/
@[simp] theorem keeps_timerDestroyLoop (x : TimerRef ℕ C) (fuel : ℕ) (wait : Bool) :
    Keeps World.ie (timerDestroyLoop x fuel wait) := by
  induction fuel generalizing wait with
  | zero => exact keeps_stuck
  | succ fuel ih =>
    cases wait with
    | false =>
      refine Keeps.bind (keeps_fromKernel _) fun _ => ?_
      exact Keeps.ite (Keeps.bind (keeps_onKernel _) fun _ => ih true) (ih true)
    | true =>
      refine Keeps.bind keeps_get fun w => Keeps.ite ?_ ?_
      · exact Keeps.bind keeps_schedule fun _ => ih true
      · refine Keeps.bind (keeps_fromKernel _) fun _ => ?_
        exact Keeps.ite (ih false) (keeps_pure ())

@[simp] theorem keeps_timerDestroy (x : TimerRef ℕ C) (fuel : ℕ) :
    Keeps World.ie (timerDestroy x fuel) := by
  refine keeps_section fun status => Ends.bind (keeps_timerDestroyLoop x fuel false) fun _ => ?_
  exact ends_conditionallyEnableInterrupts status

omit [DecidableEq C] in
@[simp] theorem keeps_threadGetCurrent :
    Keeps World.ie (threadGetCurrent : KernelM C (Option ℕ)) := by
  refine keeps_section fun state => Ends.bind keeps_get fun w => ?_
  exact ends_section state fun _ => keeps_pure _

@[simp] theorem keeps_threadSuspend : Keeps World.ie (threadSuspend : KernelM C Unit) := by
  refine keeps_section fun state => ?_
  repeat with_reducible refine Ends.bind (by simp) fun _ => ?_
  exact ends_conditionallyEnableInterrupts state

@[simp] theorem keeps_threadWakeup (t : ℕ) : Keeps World.ie (threadWakeup t : KernelM C Errno) := by
  refine keeps_section fun state => Ends.bind keeps_get fun w => ?_
  have hend : Ends World.ie state (conditionallyEnableInterrupts state >>= fun _ =>
      (pure .eok : KernelM C Errno)) := ends_section state fun _ => keeps_pure _
  refine Ends.ite ?_ hend
  exact Ends.bind (keeps_onKernel _) fun _ => Ends.bind (keeps_schedInsert t) fun _ => hend

@[simp] theorem keeps_threadSleep (u : SleepUnit) (n : Word) (fuel : ℕ) :
    Keeps World.ie (threadSleep u n fuel : KernelM C Word) := by
  refine keeps_section fun state => ?_
  repeat with_reducible refine Ends.bind (by simp) fun _ => ?_
  exact ends_section state fun _ => keeps_pure _

omit [DecidableEq C] in
@[simp] theorem keeps_threadCanJoin (t : ℕ) : Keeps World.ie (threadCanJoin t : KernelM C Bool) := by
  refine keeps_section fun state => Ends.bind keeps_get fun w => ?_
  refine ends_section state fun _ => Keeps.ite (keeps_pure _) ?_
  exact Keeps.bind keeps_get fun _ => keeps_pure _

omit [DecidableEq C] in
@[simp] theorem keeps_threadDestroy : Keeps World.ie (threadDestroy : KernelM C Unit) :=
  Keeps.bind keeps_heapCall fun _ => keeps_heapCall

@[simp] theorem keeps_threadJoin (t : ℕ) :
    Keeps World.ie (threadJoin t : KernelM C (Except Errno Word)) := by
  refine keeps_section fun status => Ends.bind keeps_get fun w => ?_
  refine Ends.bind (keeps_threadCanJoin t) fun _ => Ends.ite ?_ ?_
  · -- both branches go on to the end of the function
    have hend : Ends World.ie status ((get : KernelM C (World C)) >>= fun w => threadDestroy >>= fun _ =>
        conditionallyEnableInterrupts status >>= fun _ =>
          (pure (.ok (w.kernel.retval t)) : KernelM C (Except Errno Word))) :=
      Ends.bind keeps_get fun w => Ends.bind keeps_threadDestroy fun _ =>
        ends_section status fun _ => keeps_pure _
    refine Ends.bind keeps_get fun w => Ends.ite ?_ hend
    exact Ends.bind (keeps_onKernel _) fun _ => Ends.bind keeps_threadSuspend fun _ => hend
  · exact ends_section status fun _ => keeps_pure _

omit [DecidableEq C] in
@[simp] theorem keeps_currentVmm : Keeps World.ie (currentVmm : KernelM C Vmm) := by
  unfold currentVmm
  repeat with_reducible refine Keeps.bind (by simp) fun _ => ?_
  exact keeps_pure _

omit [DecidableEq C] in
@[simp] theorem keeps_vmaCheckUser (addr size : Word) :
    Keeps World.ie (vmaCheckUser addr size : KernelM C Bool) := by
  refine keeps_section fun state => Ends.bind keeps_currentVmm fun _ => ?_
  exact ends_section state fun _ => keeps_pure _

omit [DecidableEq C] in
@[simp] theorem keeps_vmmMappingFind (virt : Word) :
    Keeps World.ie (vmmMappingFind virt : KernelM C (Except Errno Word)) := by
  refine keeps_section fun state => Ends.bind keeps_currentVmm fun _ => ?_
  exact ends_section state fun _ => keeps_pure _

omit [DecidableEq C] in
@[simp] theorem keeps_vmmCreate (mem : Bool) :
    Keeps World.ie (vmmCreate mem : KernelM C (Except Errno ℕ)) := by
  refine Keeps.bind keeps_heapCall fun _ => keeps_onMachine fun m m' a h => ?_
  obtain rfl : (m.vmmCreate mem).1 = m' := congrArg Prod.fst (Except.ok.inj h)
  exact m.vmmCreate_ie mem

@[simp] theorem keeps_processJoin (p : ℕ) :
    Keeps World.ie (processJoin p : KernelM C (Except Errno Word)) := by
  refine keeps_section fun state => Ends.bind keeps_get fun w => ?_
  exact ends_section state fun _ => keeps_threadJoin _

/-! ### `thread_create` and `process_create` -/

/-- The control block and the stack of a new thread are there, it needs a new map, and there is no
memory for that. -/
def noMap (newVmm : Bool) (mem : ThreadAnswers) (current : Option ℕ) : Bool :=
  mem.thread.isSome && mem.stack && (current.isNone || newVmm) && !mem.vmm

variable {w w' : World C} {newVmm memVmm : Bool} {mem : ThreadAnswers} {t : ℕ} {r : Except Errno ℕ}

omit [DecidableEq C] in
theorem vmmCreate_isOk (h : vmmCreate memVmm w = .ok (r, w')) : r.isOk = memVmm := by
  obtain ⟨_, w₁, -, h2⟩ := StateT.bind_eq_ok.mp h
  cases memVmm with
  | false =>
    cases h2
    rfl
  | true =>
    cases h2
    rfl

omit [DecidableEq C] in
/-- The choice of the map: an error means that a new one was needed. -/
theorem threadCreateVmm_spec (h : threadCreateVmm newVmm memVmm w = .ok (r, w')) :
    w'.ie = w.ie ∧ r.isOk = !((w.current.isNone || newVmm) && !memVmm) := by
  obtain ⟨w₀, w₁, h1, h2⟩ := StateT.bind_eq_ok.mp h
  cases h1
  cases hc : w.current with
  | none =>
    rw [hc] at h2
    exact ⟨keeps_vmmCreate _ _ _ _ h2, by simp [vmmCreate_isOk h2]⟩
  | some c =>
    rw [hc] at h2
    cases newVmm with
    | true => exact ⟨keeps_vmmCreate _ _ _ _ h2, by simp [vmmCreate_isOk h2]⟩
    | false =>
      cases h2
      exact ⟨rfl, rfl⟩

/-- **Where `thread_create` does not restore the bit.** -/
theorem threadCreateAt_ie (h : threadCreateAt newVmm memVmm t w = .ok (r, w')) :
    w'.ie = (w.ie && !((w.current.isNone || newVmm) && !memVmm)) := by
  obtain ⟨state, w₁, h1, h2⟩ := StateT.bind_eq_ok.mp h
  cases h1
  obtain ⟨v, w₂, h3, h4⟩ := StateT.bind_eq_ok.mp h2
  obtain ⟨hie, hok⟩ := threadCreateVmm_spec h3
  have hoff : w₂.ie = false := hie
  change v.isOk = !((w.current.isNone || newVmm) && !memVmm) at hok
  rw [← hok]
  cases v with
  | error rc =>
    have hkeeps : Keeps World.ie (heapCall >>= fun _ => heapCall >>= fun _ =>
        (pure (.error rc) : KernelM C (Except Errno ℕ))) :=
      Keeps.bind keeps_heapCall fun _ => Keeps.bind keeps_heapCall fun _ => keeps_pure _
    rw [hkeeps _ _ _ h4, hoff]
    exact (Bool.and_false _).symm
  | ok v =>
    have hends : Ends World.ie w.ie (modify (fun w : World C =>
        { w with machine.threadVmm := Function.update w.machine.threadVmm t v }) >>= fun _ =>
        conditionallyEnableInterrupts w.ie >>= fun _ => onKernel (fun k => threadInit k t) >>= fun _ =>
          schedInsert t >>= fun _ => (pure (.ok t) : KernelM C (Except Errno ℕ))) :=
      Ends.bind (keeps_modify fun _ => rfl) fun _ => ends_section _ fun _ =>
        Keeps.bind (keeps_onKernel _) fun _ => Keeps.bind (keeps_schedInsert t) fun _ => keeps_pure _
    rw [hends _ _ _ hoff h4]
    exact (Bool.and_true _).symm

/-- **`thread_create`.** -/
theorem threadCreate_ie (h : threadCreate newVmm mem w = .ok (r, w')) :
    w'.ie = (w.ie && !noMap newVmm mem w.current) := by
  obtain ⟨_, w₁, h1, h2⟩ := StateT.bind_eq_ok.mp h
  have hie := keeps_heapCall _ _ _ h1
  have hcurrent := keeps_heapCall_current _ _ _ h1
  cases hthread : mem.thread with
  | none =>
    rw [hthread] at h2
    cases h2
    simp [hie, noMap, hthread]
  | some t =>
    rw [hthread] at h2
    obtain ⟨_, w₂, h3, h4⟩ := StateT.bind_eq_ok.mp h2
    have hie₂ := keeps_heapCall _ _ _ h3
    have hcurrent₂ := keeps_heapCall_current _ _ _ h3
    cases hstack : mem.stack with
    | false =>
      rw [hstack] at h4
      have hkeeps : Keeps World.ie (heapCall >>= fun _ =>
          (pure (.error .enomem) : KernelM C (Except Errno ℕ))) :=
        Keeps.bind keeps_heapCall fun _ => keeps_pure _
      have hie₃ := hkeeps _ _ _ h4
      simp [hie₃, hie₂, hie, noMap, hstack]
    | true =>
      rw [hstack] at h4
      rw [threadCreateAt_ie h4, hie₂, hcurrent₂, hie, hcurrent]
      simp [noMap, hthread, hstack]

/-! A process always gets a map of its own, so the current thread does not matter. -/

variable {p u : ℕ} {memProcess memUthread : Option ℕ}

theorem noMap_true (mem : ThreadAnswers) (current : Option ℕ) :
    noMap true mem current = (mem.thread.isSome && mem.stack && !mem.vmm) := by
  simp [noMap]

omit [DecidableEq C] in
theorem keeps_processInit (p u : ℕ) : Keeps World.ie (processInit p u : KernelM C Unit) := by
  refine Keeps.bind (keeps_modify fun _ => rfl) fun _ => ?_
  exact Keeps.bind (keeps_onProcessLinks _) fun _ => Keeps.bind (keeps_onProcessLinks _) fun _ =>
    keeps_onProcessLinks _

theorem processCreateAt_ie (h : processCreateAt p u mem w = .ok (r, w')) :
    w'.ie = (w.ie && !noMap true mem w.current) := by
  obtain ⟨_, w₁, h1, h2⟩ := StateT.bind_eq_ok.mp h
  obtain ⟨t, w₂, h3, h4⟩ := StateT.bind_eq_ok.mp h2
  have hie : w₂.ie = (w.ie && !noMap true mem w.current) := by
    rw [threadCreate_ie h3, keeps_processInit p u _ _ _ h1, noMap_true, noMap_true]
  rw [← hie]
  cases t with
  | error rc =>
    have hkeeps : Keeps World.ie (onProcessLinks (fun l => listRemove l (some (.uthread u))) >>= fun _ =>
        heapCall >>= fun _ => heapCall >>= fun _ =>
          (pure (.error rc) : KernelM C (Except Errno ℕ))) :=
      Keeps.bind (keeps_onProcessLinks _) fun _ => Keeps.bind keeps_heapCall fun _ =>
        Keeps.bind keeps_heapCall fun _ => keeps_pure _
    exact hkeeps _ _ _ h4
  | ok t =>
    cases h4
    rfl

/-- **`process_create`.** -/
theorem processCreate_ie (h : processCreate memProcess memUthread mem w = .ok (r, w')) :
    w'.ie = (w.ie && !(memProcess.isSome && memUthread.isSome && noMap true mem w.current)) := by
  obtain ⟨_, w₁, h1, h2⟩ := StateT.bind_eq_ok.mp h
  have hie := keeps_heapCall _ _ _ h1
  cases memProcess with
  | none =>
    cases h2
    simp [hie]
  | some p =>
    obtain ⟨_, w₂, h3, h4⟩ := StateT.bind_eq_ok.mp h2
    have hie₂ := keeps_heapCall _ _ _ h3
    cases memUthread with
    | none =>
      have hkeeps : Keeps World.ie (heapCall >>= fun _ =>
          (pure (.error .enomem) : KernelM C (Except Errno ℕ))) :=
        Keeps.bind keeps_heapCall fun _ => keeps_pure _
      have hie₃ := hkeeps _ _ _ h4
      simp [hie₃, hie₂, hie]
    | some u =>
      rw [processCreateAt_ie h4, hie₂, hie, noMap_true, noMap_true]
      simp

end KernelM

/-! ### Every call -/

namespace Call

variable {C : Type} [DecidableEq C]

open KernelM

/-- The call is made with interrupts enabled, and it is a `thread_create` or a `process_create` that
has the memory of the control blocks and of the stack, needs a new map, and gets no memory for it. -/
def MapFails (w : World C) : Call C → Prop
  | threadCreate newVmm mem => w.ie = true ∧ noMap newVmm mem w.current = true
  | processCreate memProcess memUthread mem =>
    w.ie = true ∧ memProcess.isSome = true ∧ memUthread.isSome = true ∧
      noMap true mem w.current = true
  | _ => False

omit [DecidableEq C] in
/-- A call that keeps the bit whatever the state is. -/
theorem iff_of_keeps {f : KernelM C Unit} {w w' : World C} (hf : Keeps World.ie f)
    (h : f w = .ok ((), w')) : w'.ie = w.ie ↔ ¬ False := by
  simpa using hf _ _ _ h

/-- **The interrupt enable bit.**  A call that returns leaves the bit of its thread as it was, from
every state and with every answer of the allocators, exactly when it is not one of those. -/
theorem interrupts_preserved (call : Call C) (fuel : ℕ) (w w' : World C)
    (h : call.code fuel w = .ok ((), w')) : w'.ie = w.ie ↔ ¬ call.MapFails w := by
  cases call with
  | malloc heapList answer size =>
    exact iff_of_keeps (Keeps.bind (keeps_onHeap (HeapM.keeps_malloc _ _ _ _)) fun _ => keeps_pure _) h
  | free answer addr => exact iff_of_keeps (keeps_onHeap (HeapM.keeps_free _ _)) h
  | vmaMap va size flags answer =>
    have hkeeps : Keeps World.ie (onMachine fun m => m.vmaMap va size flags answer : KernelM C _) :=
      keeps_onMachine fun m m' a hm => Machine.vmaMap_ie hm
    exact iff_of_keeps (Keeps.bind hkeeps fun _ => keeps_pure _) h
  | vmaUnmap va answer =>
    have hkeeps : Keeps World.ie (onMachine fun m => m.vmaUnmap va answer : KernelM C _) :=
      keeps_onMachine fun m m' a hm => Machine.vmaUnmap_ie hm
    exact iff_of_keeps (Keeps.bind hkeeps fun _ => keeps_pure _) h
  | vmaCheckUser addr size =>
    exact iff_of_keeps (Keeps.bind (keeps_vmaCheckUser _ _) fun _ => keeps_pure _) h
  | vmmCreate mem => exact iff_of_keeps (Keeps.bind (keeps_vmmCreate _) fun _ => keeps_pure _) h
  | vmmMappingFind virt =>
    exact iff_of_keeps (Keeps.bind (keeps_vmmMappingFind _) fun _ => keeps_pure _) h
  | tlbFlush addr =>
    have hkeeps : Keeps World.ie (onMachine fun m =>
        .ok ({ m with cpu := m.cpu.tlbFlush addr }, ()) : KernelM C Unit) := by
      refine keeps_onMachine fun m m' a hm => ?_
      cases hm
      exact Cpu.tlbFlush_ie _ _
    exact iff_of_keeps hkeeps h
  | threadCreate newVmm mem =>
    obtain ⟨r, w₁, h1, h2⟩ := StateT.bind_eq_ok.mp h
    cases h2
    rw [threadCreate_ie h1, MapFails]
    cases w.ie <;> simp
  | threadSuspend => exact iff_of_keeps keeps_threadSuspend h
  | threadWakeup t => exact iff_of_keeps (Keeps.bind (keeps_threadWakeup _) fun _ => keeps_pure _) h
  | threadSleep sec =>
    exact iff_of_keeps (Keeps.bind (keeps_threadSleep _ _ _) fun _ => keeps_pure _) h
  | threadUsleep usec =>
    exact iff_of_keeps (Keeps.bind (keeps_threadSleep _ _ _) fun _ => keeps_pure _) h
  | threadJoin t => exact iff_of_keeps (Keeps.bind (keeps_threadJoin _) fun _ => keeps_pure _) h
  | schedInsert t => exact iff_of_keeps (keeps_schedInsert _) h
  | schedRemove t => exact iff_of_keeps (keeps_schedRemove _) h
  | schedule => exact iff_of_keeps keeps_schedule h
  | timerStart x => exact iff_of_keeps (keeps_timerStart _) h
  | timerDestroy x => exact iff_of_keeps (keeps_timerDestroy _ _) h
  | processCreate memProcess memUthread mem =>
    obtain ⟨r, w₁, h1, h2⟩ := StateT.bind_eq_ok.mp h
    cases h2
    rw [processCreate_ie h1, MapFails]
    cases w.ie <;> cases memProcess <;> cases memUthread <;> simp
  | processJoin p => exact iff_of_keeps (Keeps.bind (keeps_processJoin _) fun _ => keeps_pure _) h

/-- The main thread after `bsp_start`, with interrupts enabled; no other thread runs meanwhile. -/
def mainWorld : World ℕ where
  machine := Machine.firstThread
  kernel := Kernel.booted
  heap := HeapRun.zeroState
  mainUthread := fun _ => 0
  uthreadThread := fun _ => 0
  processLinks := ⟨fun _ => none, fun _ => none⟩
  meanwhile := []
  count := fun _ => 0

/-- The world after a call from it that returns. -/
def after (w : World C) (call : Call C) : World C :=
  match call.code 0 w with
  | .ok (_, w') => w'
  | _ => w

/-- With memory for everything, a thread with a new map is created. -/
def created : World ℕ := after mainWorld (threadCreate true ⟨some 3, true, true⟩)

theorem interrupts_preserved_created :
    (threadCreate true ⟨some 3, true, true⟩).code 0 mainWorld = .ok ((), created) ∧
      created.ie = mainWorld.ie := by
  have hrun : (threadCreate true ⟨some 3, true, true⟩).code 0 mainWorld = .ok ((), created) := rfl
  refine ⟨hrun, (interrupts_preserved _ 0 mainWorld created hrun).mpr ?_⟩
  rintro ⟨-, hmap⟩
  exact absurd hmap (by decide)

/-- Without memory for the map. -/
def refused : World ℕ := after mainWorld (threadCreate true ⟨some 3, true, false⟩)

/-- `thread_create` returns to its caller, and interrupts stay disabled. -/
theorem thread_create_leaves_off :
    (threadCreate true ⟨some 3, true, false⟩).code 0 mainWorld = .ok ((), refused) ∧
      mainWorld.ie = true ∧ refused.ie = false :=
  ⟨rfl, rfl, rfl⟩

end Call

end Kalisto
