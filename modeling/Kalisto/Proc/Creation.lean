import Kalisto.Mm.HeapUndo
import Kalisto.Proc.Context

/-!
# Creating threads and processes

`thread_create`, `process_create` and `vmm_create` on the memory of the kernel, with the real `malloc`
and `free`: the control blocks, the stack and the map are blocks of the heap, `runnable_list`,
`current_thread` and `last_asid` are data of the image.  Each call of `frame_alloc` can fail.

* `Creation.run` — the two calls;
* `threadCreate_spec` — a call that fails frees its blocks in the opposite order;
* `failed_creation_no_trace` — a call that returns an error leaves the kernel as it was.
-/

namespace Kalisto

open HeapM

/-! ### Structure layouts -/

/-- `sizeof (struct thread)`: `link` at 0, `stack_size` at 8, `stack_data` at 12, `entry_func` at 16,
`entry_data` at 20, `retval` at 24, `stack_top` at 28, `state` at 32, `scheduled` at 36, `joiner` at 40,
`timer` at 44, `wait_queue_link` at 72, `vmm` at 80, `process` at 84, `uthread` at 88. -/
def sizeofThread : ℕ := 92

/-- `sizeof (struct process)`: `link` at 0, `ustack_top` at 8, `main_uthread` at 12, `image` at 16,
`size` at 20, `retval` at 24, `uthread_list` at 28, `umutex_list` at 36. -/
def sizeofProcess : ℕ := 44

/-- `sizeof (struct uthread)`: `link` at 0, `thread` at 8, `process` at 12, `entry` at 16, `data` at 20,
`user_data` at 24. -/
def sizeofUthread : ℕ := 28

/-- `sizeof (struct vmm)`: `asid` at 0, the areas of 16 bytes from 4 on. -/
def sizeofVmm : ℕ := 1604

/-- `TF_NEW_VMM`. -/
def tfNewVmm : ℕ := 1

/-- `USER_CODE_START`. -/
def userCodeStart : ℕ := 0x1000

/-- `THREAD_READY`. -/
def threadReady : ℕ := 0

/-- The data of the image that the calls use, and the addresses of two functions. -/
structure KernelImage extends Image where
  /-- `runnable_list[cpuid ()]` -/
  runnableList : ℕ
  /-- `current_thread[cpuid ()]` -/
  currentThread : ℕ
  lastAsid : ℕ
  threadStub : ℕ
  processStub : ℕ
  addresses : 0 < lo ∧ hi ≤ 2 ^ 32
  aligned : runnableList % 4 = 0 ∧ currentThread % 4 = 0
  runnableList_data : ∀ x, runnableList ≤ x → x < runnableList + 8 → toImage.Data x
  currentThread_data : ∀ x, currentThread ≤ x → x < currentThread + 4 → toImage.Data x
  lastAsid_data : toImage.Data lastAsid
  lastAsid_apart : lastAsid < runnableList ∨ runnableList + 8 ≤ lastAsid

/-! ### The code -/

namespace HeapM

/-- `bzero`. -/
def bzero (p n : ℕ) : HeapM Unit :=
  modify fun s => { s with mem := fun x => if p ≤ x ∧ x < p + n then 0 else s.mem x }

/-- Read the byte at `p`. -/
def loadByte (p : ℕ) : HeapM Byte := do return (← get).mem p

/-- Write the byte at `p`. -/
def storeByte (p : ℕ) (v : Byte) : HeapM Unit :=
  modify fun s => { s with mem := s.mem.setByte p v }

end HeapM

namespace KernelImage

variable (im : KernelImage) (a : FrameAllocator im.toImage)

/-- `vmm_create`. -/
def vmmCreate (pvmm fuel : ℕ) : HeapM Errno := do
  let vmm ← a.malloc sizeofVmm fuel
  if vmm = 0 then return .enomem
  else
    bzero vmm sizeofVmm
    let state ← queryAndDisableInterrupts
    let asid ← loadByte im.lastAsid
    storeByte vmm asid
    storeByte im.lastAsid (asid + 1)
    conditionallyEnableInterrupts state
    store pvmm 0 vmm
    return .eok

/-- The map of a new thread in `thread_create`. -/
def threadVmm (thread flags fuel : ℕ) : HeapM Errno := do
  let current ← load im.currentThread 0
  if current = 0 ∨ flags &&& tfNewVmm = tfNewVmm then im.vmmCreate a (thread + 80) fuel
  else
    store thread 80 (← load current 80)
    return .eok

/-- The fields and the initial context of a new thread in `thread_create`. -/
def threadFields (thread entry data : ℕ) : HeapM Unit := do
  linkInit thread
  store thread 16 entry
  store thread 20 data
  store thread 24 0
  store thread 84 0
  store thread 88 0
  store thread 28 (← sub (← sub (← add (← load thread 12) threadStackSize) contextSize) abiStackFrame)
  store thread 36 0
  store thread 32 threadReady
  store thread 40 0
  linkInit (thread + 72)
  let context ← load thread 28
  store context (regsOffset (.reg .ra)) im.threadStub
  store context (regsOffset (.reg .a0)) thread
  store context (regsOffset (.reg .gp)) (addrInKseg0 0)
  store context (regsOffset .status) (cp0StatusIeMask ||| cp0StatusImMask).toNat

/-- `sched_insert`. -/
def schedInsert (thread : ℕ) : HeapM Unit := do
  let state ← queryAndDisableInterrupts
  listAppend im.runnableList thread
  conditionallyEnableInterrupts state

/-- `thread_create`, when it has the control block and the stack. -/
def threadCreateWith (pthread thread entry data flags fuel : ℕ) : HeapM Errno := do
  let state ← queryAndDisableInterrupts
  let rc ← im.threadVmm a thread flags fuel
  if rc ≠ .eok then
    -- `state` is not restored here
    a.release (← load thread 12)
    a.release thread
    return rc
  else
    conditionallyEnableInterrupts state
    im.threadFields thread entry data
    im.schedInsert thread
    store pthread 0 thread
    return .eok

/-- `thread_create`. -/
def threadCreate (pthread entry data flags fuel : ℕ) : HeapM Errno := do
  let thread ← a.malloc sizeofThread fuel
  if thread = 0 then return .enomem
  else
    store thread 8 threadStackSize
    store thread 12 (← a.malloc threadStackSize fuel)
    if (← load thread 12) = 0 then
      a.release thread
      return .enomem
    else im.threadCreateWith a pthread thread entry data flags fuel

/-- The fields of a new process and of its main user space thread. -/
def processFields (process uthread image size : ℕ) : HeapM Unit := do
  store process 12 uthread
  store process 16 image
  store process 20 size
  listInit (process + 28)
  listInit (process + 36)
  store uthread 12 process
  store uthread 16 userCodeStart
  store uthread 20 0
  store uthread 24 0

/-- `process_create`, when it has the two control blocks. -/
def processCreateWith (pprocess process uthread image size fuel : ℕ) : HeapM Errno := do
  processFields process uthread image size
  listAppend (process + 28) uthread
  let rc ← im.threadCreate a (uthread + 8) im.processStub process tfNewVmm fuel
  if rc ≠ .eok then
    listRemove uthread
    a.release uthread
    a.release process
    return rc
  else
    store pprocess 0 process
    return .eok

/-- `process_create`. -/
def processCreate (pprocess image size fuel : ℕ) : HeapM Errno := do
  let process ← a.malloc sizeofProcess fuel
  if process = 0 then return .enomem
  else
    let uthread ← a.malloc sizeofUthread fuel
    if uthread = 0 then
      a.release process
      return .enomem
    else im.processCreateWith a pprocess process uthread image size fuel

end KernelImage

/-- **The two calls**, with their arguments. -/
inductive Creation where
  | thread (entry data flags : ℕ)
  | process (image size : ℕ)

/-- The code of a call whose result goes to `cell`. -/
def Creation.run (c : Creation) (im : KernelImage) (a : FrameAllocator im.toImage) (cell fuel : ℕ) :
    HeapM Errno :=
  match c with
  | thread entry data flags => im.threadCreate a cell entry data flags fuel
  | process image size => im.processCreate a cell image size fuel

/-! ### What the parts of the code write -/

/-- A block of `n` bytes at `p`: aligned, and in KSEG0. -/
def Placed (p n : ℕ) : Prop := p % 4 = 0 ∧ 0x80000000 ≤ p ∧ p + n ≤ 0xA0000000

namespace HeapM

theorem conditionallyEnableInterrupts_apply (b : Bool) (s : HeapState) :
    conditionallyEnableInterrupts b s = .ok ((), { s with ie := b || s.ie }) := by
  rw [conditionallyEnableInterrupts, modify_apply]
  cases b <;> rfl

theorem listInit_apply {list : ℕ} (h0 : 0 < list) (h4 : list % 4 = 0) (hlt : list + 8 ≤ 2 ^ 32)
    (s : HeapState) :
    listInit list s = .ok ((), { s with mem := (s.mem.setWord list list).setWord (list + 4) list }) := by
  have hne : (list != 0) = true := by simp; omega
  simp only [listInit, bind_apply, hne, assert_true, Outcome.ok_bind,
    store_apply (show list + 0 < 2 ^ 32 by omega) (show (list + 0) % 4 = 0 by omega),
    store_apply (show list + 4 < 2 ^ 32 by omega) (show (list + 4) % 4 = 0 by omega), Nat.add_zero]

end HeapM

/-- **The fields of a thread**: the bytes that change are in the control block and in the stack. -/
theorem KernelImage.threadFields_apply (im : KernelImage) (entry data : ℕ) {thread stack : ℕ} {s : HeapState}
    (ht : Placed thread sizeofThread) (hs : Placed stack threadStackSize)
    (hstack : s.mem.word (thread + 12) = stack) :
    ∃ m', im.threadFields thread entry data s = .ok ((), { s with mem := m' }) ∧
      ∀ x, (x < thread ∨ thread + sizeofThread ≤ x) → (x < stack ∨ stack + threadStackSize ≤ x) →
        m' x = s.mem x := by
  obtain ⟨h1, h2, h3⟩ := ht
  obtain ⟨h4, h5, h6⟩ := hs
  simp only [sizeofThread, threadStackSize] at h3 h6 ⊢
  have hra : regsOffset (.reg .ra) = 124 := by decide
  have ha0 : regsOffset (.reg .a0) = 16 := by decide
  have hgp : regsOffset (.reg .gp) = 112 := by decide
  have hst : regsOffset .status = 152 := by decide
  have hctx : contextSize = 156 := by decide
  refine ⟨?m, ?run, ?frame⟩
  case run =>
    simp (disch := omega) only [threadFields, bind_apply, linkInit_apply, store_apply, load_apply,
      Outcome.ok_bind, Memory.word_setWord_of_ne, Memory.word_setWord_self, hstack, add_apply, sub_apply,
      threadStackSize, abiStackFrame, hctx, hra, ha0, hgp, hst, Nat.mod_eq_of_lt, Nat.add_assoc]
    exact rfl
  case frame =>
    intro x hx hx'
    simp (disch := omega) only [Memory.setWord_of_outside]

/-- **`sched_insert`** of a thread, when the last link of the list is a good address. -/
theorem KernelImage.schedInsert_apply (im : KernelImage) {thread : ℕ} {s : HeapState}
    (ht : Placed thread sizeofThread)
    (hlist : ∀ x, thread ≤ x → x < thread + sizeofThread → x < im.runnableList ∨ im.runnableList + 8 ≤ x)
    (hlast : s.mem.word im.runnableList % 4 = 0 ∧ s.mem.word im.runnableList + 8 ≤ 2 ^ 32) :
    ∃ s', im.schedInsert thread s = .ok ((), s') := by
  obtain ⟨h1, h2, h3⟩ := ht
  obtain ⟨h4, h5⟩ := hlast
  simp only [sizeofThread] at h3 hlist
  have hr4 := im.aligned.1
  obtain ⟨hlo, hhi⟩ := im.addresses
  obtain ⟨hr1, -, -⟩ := im.runnableList_data im.runnableList le_rfl (by omega)
  obtain ⟨-, hr2, -⟩ := im.runnableList_data (im.runnableList + 7) (by omega) (by omega)
  have hne1 : (im.runnableList != 0) = true := by simp; omega
  have hne2 : (thread != 0) = true := by simp; omega
  have hap1 := hlist thread le_rfl (by omega)
  have hap2 := hlist (thread + 4) (by omega) (by omega)
  refine ⟨?s, ?run⟩
  case run =>
    simp (disch := omega) only [schedInsert, queryAndDisableInterrupts, bind_apply, Outcome.ok_bind,
      listAppend, hne1, hne2, assert_true, store_apply, load_apply, Nat.add_zero, Memory.word_setWord_of_ne,
      conditionallyEnableInterrupts_apply]
    exact rfl

/-- **The fields of a process**: the bytes that change are in the two control blocks, and the process has
no user space thread yet. -/
theorem processFields_apply (image size : ℕ) {process uthread : ℕ} {s : HeapState}
    (hp : Placed process sizeofProcess) (hu : Placed uthread sizeofUthread)
    (hap : process + sizeofProcess ≤ uthread ∨ uthread + sizeofUthread ≤ process) :
    ∃ m', KernelImage.processFields process uthread image size s = .ok ((), { s with mem := m' }) ∧
      Links.Ring (linksOf m') (process + 28) [] ∧
      ∀ x, (x < process ∨ process + sizeofProcess ≤ x) → (x < uthread ∨ uthread + sizeofUthread ≤ x) →
        m' x = s.mem x := by
  obtain ⟨h1, h2, h3⟩ := hp
  obtain ⟨h4, h5, h6⟩ := hu
  simp only [sizeofProcess, sizeofUthread] at h3 h6 hap ⊢
  refine ⟨?m, ?run, ?ring, ?frame⟩
  case run =>
    simp (disch := omega) only [KernelImage.processFields, bind_apply, store_apply, listInit_apply,
      Outcome.ok_bind]
    exact rfl
  case ring =>
    refine ⟨⟨?_, ?_⟩, by simp⟩
    · simp (disch := omega) only [linksOf, Memory.word_setWord_of_ne, Memory.word_setWord_self,
        Nat.mod_eq_of_lt, ptr_of_pos]
    · simp (disch := omega) only [linksOf, Memory.word_setWord_of_ne, Memory.word_setWord_self,
        Nat.mod_eq_of_lt, ptr_of_pos]
  case frame =>
    intro x hx hx'
    simp (disch := omega) only [Memory.setWord_of_outside]

/-! ### The state of the kernel -/

open HeapRun

variable {im : KernelImage} {w w' : HeapRun} {lay lay' : List HeapDesc} {ready : List ℕ}
  {ps : List (ℕ × ℕ)}

/-- The block of a thread is at `t`. -/
def IsThread (w : HeapRun) (t : ℕ) : Prop := ∃ n, w.live t = some n ∧ sizeofThread ≤ n

/-- **A well-formed kernel state**: the heap is that of a run and outside the image, `runnable_list` is a
list of threads, and the current thread is a thread, if there is one. -/
structure WellFormed (im : KernelImage) (w : HeapRun) (lay : List HeapDesc) (ready : List ℕ) : Prop where
  inv : HeapInv im.heapList w lay
  apart : im.toImage.Apart lay
  runnable : Links.Ring (linksOf w.st.mem) im.runnableList ready
  threads : ∀ t ∈ ready, IsThread w t
  current : w.st.mem.word im.currentThread = 0 ∨ IsThread w (w.st.mem.word im.currentThread)

/-- The bytes at `x` to `x + n` belong to the image or to a client. -/
def Owned (im : KernelImage) (w : HeapRun) (x n : ℕ) : Prop :=
  ∀ y, x ≤ y → y < x + n → im.Data y ∨ ∃ p, w.Held p y

theorem HeapRun.Pending.word (h : Pending im.toImage w lay ps w' lay') {x : ℕ} (hx : Owned im w x 4) :
    w'.st.mem.word x = w.st.mem.word x :=
  Memory.word_congr fun y h1 h2 => (h.kept (hx y h1 h2)).2

theorem IsThread.owned {t : ℕ} (h : IsThread w t) {x n : ℕ} (hx : t ≤ x) (hn : x + n ≤ t + sizeofThread) :
    Owned im w x n := by
  obtain ⟨k, hk, hle⟩ := h
  exact fun y h1 h2 => Or.inr ⟨t, k, hk, by omega, by omega⟩

/-- **A thread of before is a thread still.** -/
theorem IsThread.pending {t : ℕ} (ht : IsThread w t) (h : Pending im.toImage w lay ps w' lay') :
    IsThread w' t := by
  obtain ⟨n, hn, hle⟩ := ht
  refine ⟨n, ?_, hle⟩
  rw [h.others t fun r hr heq => ?_, hn]
  rw [heq, (h.fresh r hr).1] at hn
  cases hn

/-- The state is well formed with some blocks that are not freed yet. -/
theorem WellFormed.pending (hw : WellFormed im w lay ready) (h : Pending im.toImage w lay ps w' lay') :
    WellFormed im w' lay' ready := by
  refine ⟨h.inv, h.imageApart, hw.runnable.congr fun t ht => linksOf_congr fun x h1 h2 => ?_,
    fun t ht => (hw.threads t ht).pending h, ?_⟩
  · rcases List.mem_cons.mp ht with rfl | ht
    · exact (h.kept (Or.inl (im.runnableList_data x h1 h2))).2
    · have hown : Owned im w t 8 := (hw.threads t ht).owned le_rfl (by simp only [sizeofThread]; omega)
      exact (h.kept (hown x h1 h2)).2
  · have hword := h.word (x := im.currentThread) fun y h1 h2 => Or.inl (im.currentThread_data y h1 h2)
    rw [hword]
    exact hw.current.imp id fun hc => hc.pending h

/-- The last link of `runnable_list` is a good address. -/
theorem WellFormed.last (hw : WellFormed im w lay ready) :
    w.st.mem.word im.runnableList % 4 = 0 ∧ w.st.mem.word im.runnableList + 8 ≤ 2 ^ 32 := by
  obtain ⟨p, hp, hprev⟩ := hw.runnable.prev_mem (x := im.runnableList) (by simp)
  rw [(ptr_eq_some.mp hprev).1]
  rcases List.mem_cons.mp hp with rfl | hp
  · obtain ⟨-, hhi⟩ := im.addresses
    obtain ⟨-, hr, -⟩ := im.runnableList_data (im.runnableList + 7) (by omega) (by omega)
    exact ⟨im.aligned.1, by omega⟩
  · obtain ⟨n, hn, hle⟩ := hw.threads p hp
    obtain ⟨h1, h2, h3⟩ := hw.inv.place hn
    simp only [sizeofThread] at hle
    omega

/-- A word of the image or of a client can be stored to. -/
theorem WellFormed.address (hw : WellFormed im w lay ready) {x : ℕ} (hx : Owned im w x 4) :
    x + 4 ≤ 2 ^ 32 := by
  obtain ⟨-, hhi⟩ := im.addresses
  rcases hx (x + 3) (by omega) (by omega) with ⟨-, h2, -⟩ | ⟨p, n, hn, -, h2⟩
  · omega
  · obtain ⟨-, -, h3⟩ := hw.inv.place hn
    omega

/-! ### `vmm_create` -/

/-- `vmm_create` without memory. -/
theorem vmmCreate_full (a : FrameAllocator im.toImage) (pvmm : ℕ) {s s₁ : HeapState}
    (hret : Outcome.Returns (fun fuel => a.malloc sizeofVmm fuel s) (0, s₁)) :
    Outcome.Returns (fun fuel => im.vmmCreate a pvmm fuel s) (.enomem, s₁) := by
  simp only [KernelImage.vmmCreate, bind_apply]
  exact hret.bind (Outcome.returns_const rfl)

/-- **`vmm_create`**: without memory nothing has changed, else the word at `pvmm`, `last_asid` and new
memory. -/
theorem vmmCreate_spec (hw : WellFormed im w lay ready) (a : FrameAllocator im.toImage) {pvmm : ℕ}
    (h4 : pvmm % 4 = 0) (hlt : pvmm < 2 ^ 32) :
    ∃ rc s', Outcome.Returns (fun fuel => im.vmmCreate a pvmm fuel w.st) (rc, s') ∧
      ((rc = .enomem ∧ Pending im.toImage w lay [] ⟨s', w.live⟩ lay) ∨
        (rc = .eok ∧ ∀ x, (im.Data x ∨ ∃ p, w.Held p x) → x ≠ im.lastAsid →
          (x < pvmm ∨ pvmm + 4 ≤ x) → s'.mem x = w.st.mem x)) := by
  obtain ⟨vmm, s₁, lay₁, -, hret, -, hcase⟩ := (Pending.refl hw.inv hw.apart).malloc a
    (show sizeofVmm ≤ heapBlockSizeMax by norm_num [sizeofVmm, heapBlockSizeMax])
  rcases hcase with ⟨rfl, hp⟩ | ⟨hvmm, hp⟩
  · exact ⟨.enomem, s₁, vmmCreate_full a pvmm hret, Or.inl ⟨rfl, hp⟩⟩
  · simp only [KernelImage.vmmCreate, bind_apply]
    refine ⟨.eok, ?s, hret.bind (Outcome.returns_const ?run), Or.inr ⟨rfl, ?frame⟩⟩
    case run =>
      simp (disch := omega) only [hvmm, if_false, bzero, loadByte, storeByte, bind_apply, modify_apply,
        get_apply, pure_apply, Outcome.ok_bind, queryAndDisableInterrupts,
        conditionallyEnableInterrupts_apply, store_apply]
      exact rfl
    case frame =>
      intro x hx hasid hcell
      obtain ⟨hout, hsame⟩ := hp.kept hx
      have hout := hout (vmm, sizeofVmm) (by simp)
      simp only [sizeofVmm] at hout
      have hne : x ≠ vmm := by omega
      have hnot : ¬ (vmm ≤ x ∧ x < vmm + sizeofVmm) := by simp only [sizeofVmm]; omega
      simp (disch := omega) only [Nat.add_zero, Memory.setWord_of_outside]
      rw [Memory.setByte_of_ne hasid, Memory.setByte_of_ne hne, if_neg hnot]
      exact hsame

/-! ### `thread_create` -/

/-- The word at `current_thread` can be read. -/
theorem WellFormed.loadCurrent (hw : WellFormed im w lay ready) (s : HeapState) :
    load im.currentThread 0 s = .ok (s.mem.word im.currentThread, s) := by
  have h4 := im.aligned.2
  have hlt := hw.address (x := im.currentThread) fun y h1 h2 => Or.inl (im.currentThread_data y h1 h2)
  exact load_apply (show im.currentThread + 0 < 2 ^ 32 by omega) (show (im.currentThread + 0) % 4 = 0 by omega) s

/-- With `TF_NEW_VMM` a thread needs a new map. -/
theorem threadVmm_full (hw : WellFormed im w lay ready) (a : FrameAllocator im.toImage) (thread : ℕ)
    {flags : ℕ} (hnew : flags &&& tfNewVmm = tfNewVmm) {s s₁ : HeapState}
    (hret : Outcome.Returns (fun fuel => a.malloc sizeofVmm fuel s) (0, s₁)) :
    Outcome.Returns (fun fuel => im.threadVmm a thread flags fuel s) (.enomem, s₁) := by
  simp only [KernelImage.threadVmm, bind_apply, hw.loadCurrent, Outcome.ok_bind, hnew, or_true, if_true]
  exact vmmCreate_full a (thread + 80) hret

/-- **The map of a thread**: without memory nothing has changed, else `thread->vmm`, `last_asid` and new
memory. -/
theorem threadVmm_spec (hw : WellFormed im w lay ready) (a : FrameAllocator im.toImage) {thread : ℕ}
    (ht : w.live thread = some sizeofThread) (flags : ℕ) :
    ∃ rc s', Outcome.Returns (fun fuel => im.threadVmm a thread flags fuel w.st) (rc, s') ∧
      ((rc = .enomem ∧ Pending im.toImage w lay [] ⟨s', w.live⟩ lay) ∨
        (rc = .eok ∧ ∀ x, (im.Data x ∨ ∃ p, w.Held p x) → x ≠ im.lastAsid →
          (x < thread + 80 ∨ thread + 84 ≤ x) → s'.mem x = w.st.mem x)) := by
  obtain ⟨h1, h2, h3⟩ := hw.inv.place ht
  simp only [sizeofThread] at h3
  simp only [KernelImage.threadVmm, bind_apply, hw.loadCurrent, Outcome.ok_bind]
  by_cases hnew : w.st.mem.word im.currentThread = 0 ∨ flags &&& tfNewVmm = tfNewVmm
  · simp only [hnew, if_true]
    exact vmmCreate_spec hw a (by omega) (by omega)
  · -- the map of the current thread
    obtain ⟨n, hn, hle⟩ := hw.current.resolve_left fun h0 => hnew (Or.inl h0)
    obtain ⟨h4, -, h5⟩ := hw.inv.place hn
    simp only [sizeofThread] at hle
    simp only [hnew, if_false]
    refine ⟨.eok, ?s, Outcome.returns_const ?run, Or.inr ⟨rfl, ?frame⟩⟩
    case run =>
      simp (disch := omega) only [bind_apply, load_apply, store_apply, Outcome.ok_bind, pure_apply]
      exact rfl
    case frame =>
      intro x hx hasid hcell
      exact Memory.setWord_of_outside (by omega)

/-- **A thread with its map** gets its fields and is inserted. -/
theorem threadInsert_apply (hw : WellFormed im w lay ready) {thread stack : ℕ}
    (h : Pending im.toImage w lay [(stack, threadStackSize), (thread, sizeofThread)] w' lay')
    (hstack : w'.st.mem.word (thread + 12) = stack) {pthread : ℕ} (h4 : pthread % 4 = 0)
    (hlt : pthread < 2 ^ 32) (entry data : ℕ) {s : HeapState}
    (hframe : ∀ x, (im.Data x ∨ ∃ p, w'.Held p x) → x ≠ im.lastAsid →
      (x < thread + 80 ∨ thread + 84 ≤ x) → s.mem x = w'.st.mem x) :
    ∃ s', (do
      im.threadFields thread entry data
      im.schedInsert thread
      store pthread 0 thread
      return Errno.eok) s = .ok (.eok, s') := by
  obtain ⟨-, hlive⟩ := h.fresh (thread, sizeofThread) (by simp)
  obtain ⟨-, hlives⟩ := h.fresh (stack, threadStackSize) (by simp)
  have ht : Placed thread sizeofThread := h.inv.place hlive
  have hs : Placed stack threadStackSize := h.inv.place hlives
  have hout : ∀ x, im.Data x → (x < thread ∨ thread + sizeofThread ≤ x) ∧
      (x < stack ∨ stack + threadStackSize ≤ x) := fun x hx =>
    ⟨(h.kept (Or.inl hx)).1 (thread, sizeofThread) (by simp),
      (h.kept (Or.inl hx)).1 (stack, threadStackSize) (by simp)⟩
  -- the stack is still that of the thread
  have hword : s.mem.word (thread + 12) = stack := by
    rw [← hstack]
    have hown : Owned im w' (thread + 12) 4 :=
      IsThread.owned ⟨sizeofThread, hlive, le_rfl⟩ (by omega) (by simp only [sizeofThread]; omega)
    refine Memory.word_congr fun x h1 h2 => hframe x (hown x h1 h2) (fun hasid => ?_) (by omega)
    have hap := (hout _ im.lastAsid_data).1
    simp only [sizeofThread] at hap
    omega
  obtain ⟨m', hfields, hm'⟩ := im.threadFields_apply entry data ht hs hword
  -- the list of threads is as before
  have hlist : ∀ x, im.runnableList ≤ x → x < im.runnableList + 8 → m' x = w'.st.mem x := by
    intro x h1 h2
    have hx := im.runnableList_data x h1 h2
    have hap := (hout x hx).1
    have hne := im.lastAsid_apart
    rw [hm' x hap (hout x hx).2]
    refine hframe x (Or.inl hx) (by omega) ?_
    simp only [sizeofThread] at hap
    omega
  obtain ⟨s', hsched⟩ := im.schedInsert_apply (s := { s with mem := m' }) ht
    (fun x h1 h2 => by
      by_contra hin
      have hap := (hout x (im.runnableList_data x (by omega) (by omega))).1
      omega)
    (by
      have hlast := (hw.pending h).last
      rwa [← Memory.word_congr fun x h1 h2 => hlist x h1 (by omega)] at hlast)
  refine ⟨?s, ?run⟩
  case run =>
    simp (disch := omega) only [bind_apply, hfields, hsched, store_apply, Outcome.ok_bind, pure_apply]
    exact rfl

/-- **Without a map** both blocks of a thread are freed. -/
theorem threadCreateWith_noMap (a : FrameAllocator im.toImage) {thread stack : ℕ}
    (h : Pending im.toImage w lay [(stack, threadStackSize), (thread, sizeofThread)] w' lay')
    (hstack : w'.st.mem.word (thread + 12) = stack) (pthread entry data : ℕ) {flags : ℕ} {s₃ : HeapState}
    (hret : Outcome.Returns (fun fuel => im.threadVmm a thread flags fuel { w'.st with ie := false })
      (.enomem, s₃))
    (hp : Pending im.toImage ⟨{ w'.st with ie := false }, w'.live⟩ lay' [] ⟨s₃, w'.live⟩ lay') :
    ∃ w'', Outcome.Returns
        (fun fuel => im.threadCreateWith a pthread thread entry data flags fuel w'.st) (.enomem, w''.st) ∧
      Pending im.toImage w lay [] w'' lay := by
  obtain ⟨-, hlive⟩ := h.fresh (thread, sizeofThread) (by simp)
  obtain ⟨s₄, w₅, hfree₄, hfree₅, hp₅⟩ := ((h.setIe false).trans hp).freeBoth a
  obtain ⟨h5, -, h7⟩ := h.inv.place hlive
  simp only [sizeofThread] at h7
  have hown : Owned im ⟨{ w'.st with ie := false }, w'.live⟩ (thread + 12) 4 :=
    IsThread.owned ⟨sizeofThread, hlive, le_rfl⟩ (by omega) (by simp only [sizeofThread]; omega)
  have hword : s₃.mem.word (thread + 12) = stack := (hp.word hown).trans hstack
  refine ⟨w₅, ?_, hp₅⟩
  simp only [KernelImage.threadCreateWith, bind_apply, queryAndDisableInterrupts, Outcome.ok_bind]
  refine hret.bind (Outcome.returns_const ?_)
  simp (disch := omega) only [ne_eq, reduceCtorEq, not_false_eq_true, if_true, bind_apply, load_apply, hword,
    hfree₄, hfree₅, Outcome.ok_bind, pure_apply]

/-- **`thread_create` with the two blocks.**  It returns; with an error both blocks are freed. -/
theorem threadCreateWith_spec (hw : WellFormed im w lay ready) (a : FrameAllocator im.toImage)
    {thread stack : ℕ} (h : Pending im.toImage w lay [(stack, threadStackSize), (thread, sizeofThread)] w' lay')
    (hstack : w'.st.mem.word (thread + 12) = stack) {pthread : ℕ} (h4 : pthread % 4 = 0)
    (hlt : pthread < 2 ^ 32) (entry data flags : ℕ) :
    ∃ rc s', Outcome.Returns
        (fun fuel => im.threadCreateWith a pthread thread entry data flags fuel w'.st) (rc, s') ∧
      (rc ≠ .eok → ∃ w'', w''.st = s' ∧ Pending im.toImage w lay [] w'' lay) := by
  have hoff := h.setIe false
  obtain ⟨-, hlive⟩ := h.fresh (thread, sizeofThread) (by simp)
  obtain ⟨rc, s₃, hret, hcase⟩ := threadVmm_spec (hw.pending hoff) a hlive flags
  rcases hcase with ⟨rfl, hp⟩ | ⟨rfl, hframe⟩
  · obtain ⟨w'', hret', hp'⟩ := threadCreateWith_noMap a h hstack pthread entry data hret hp
    exact ⟨.enomem, w''.st, hret', fun _ => ⟨w'', rfl, hp'⟩⟩
  · -- the thread is inserted
    obtain ⟨s', hrun⟩ := threadInsert_apply hw h hstack h4 hlt entry data
      (s := { s₃ with ie := w'.st.ie || s₃.ie }) hframe
    simp only [bind_apply] at hrun
    simp only [KernelImage.threadCreateWith, bind_apply, queryAndDisableInterrupts, Outcome.ok_bind]
    refine ⟨.eok, s', hret.bind (Outcome.returns_const ?_), fun hne => absurd rfl hne⟩
    simp only [ne_eq, not_true_eq_false, if_false, bind_apply, conditionallyEnableInterrupts_apply,
      Outcome.ok_bind]
    exact hrun

/-- **`thread_create` with a control block**, with what follows the `malloc` of the stack. -/
theorem threadCreate_returns (a : FrameAllocator im.toImage) {thread stack : ℕ} {s s₁ s₃ s' : HeapState}
    {pthread entry data flags : ℕ} {rc : Errno} (ht : Placed thread sizeofThread)
    (hret₁ : Outcome.Returns (fun fuel => a.malloc sizeofThread fuel s) (thread, s₁))
    (hret₃ : Outcome.Returns (fun fuel => a.malloc threadStackSize fuel
      { s₁ with mem := s₁.mem.setWord (thread + 8) threadStackSize }) (stack, s₃))
    (hrest : Outcome.Returns (fun fuel => (if stack % 2 ^ 32 = 0 then (do
        a.release thread
        return Errno.enomem) else im.threadCreateWith a pthread thread entry data flags fuel)
          { s₃ with mem := s₃.mem.setWord (thread + 12) stack }) (rc, s')) :
    Outcome.Returns (fun fuel => im.threadCreate a pthread entry data flags fuel s) (rc, s') := by
  obtain ⟨h5, h6, h7⟩ := ht
  simp only [sizeofThread] at h7
  have hne : thread ≠ 0 := by omega
  have hload : load thread 12 { s₃ with mem := s₃.mem.setWord (thread + 12) stack } =
      .ok (stack % 2 ^ 32, { s₃ with mem := s₃.mem.setWord (thread + 12) stack }) := by
    rw [load_apply (by omega) (by omega), Memory.word_setWord_self]
  simp only [KernelImage.threadCreate, bind_apply]
  refine hret₁.bind ?_
  simp (disch := omega) only [hne, if_false, bind_apply, store_apply, Outcome.ok_bind]
  refine hret₃.bind ?_
  simp only [Outcome.ok_bind, hload]
  exact hrest

/-- **`thread_create`** returns; with an error nothing is left of it. -/
theorem threadCreate_spec (hw : WellFormed im w lay ready) (a : FrameAllocator im.toImage) {pthread : ℕ}
    (h4 : pthread % 4 = 0) (hlt : pthread < 2 ^ 32) (entry data flags : ℕ) :
    ∃ rc s', Outcome.Returns (fun fuel => im.threadCreate a pthread entry data flags fuel w.st) (rc, s') ∧
      (rc ≠ .eok → ∃ w', w'.st = s' ∧ Pending im.toImage w lay [] w' lay) := by
  obtain ⟨thread, s₁, lay₁, -, hret₁, -, hcase₁⟩ := (Pending.refl hw.inv hw.apart).malloc a
    (show sizeofThread ≤ heapBlockSizeMax by norm_num [sizeofThread, heapBlockSizeMax])
  rcases hcase₁ with ⟨rfl, hp₁⟩ | ⟨hthread, hp₁⟩
  · refine ⟨.enomem, s₁, ?_, fun _ => ⟨_, rfl, hp₁⟩⟩
    simp only [KernelImage.threadCreate, bind_apply]
    exact hret₁.bind (Outcome.returns_const rfl)
  obtain ⟨-, hlive₁⟩ := hp₁.fresh (thread, sizeofThread) (by simp)
  -- the stack
  have hp₂ := hp₁.store (List.mem_singleton_self _) 8 (by norm_num [sizeofThread]) threadStackSize
  obtain ⟨stack, s₃, lay₃, -, hret₃, -, hcase₃⟩ := hp₂.malloc a
    (show threadStackSize ≤ heapBlockSizeMax by norm_num [threadStackSize, heapBlockSizeMax])
  suffices hrest : ∃ rc s', Outcome.Returns (fun fuel => (if stack % 2 ^ 32 = 0 then (do
        a.release thread
        return Errno.enomem) else im.threadCreateWith a pthread thread entry data flags fuel)
          { s₃ with mem := s₃.mem.setWord (thread + 12) stack }) (rc, s') ∧
      (rc ≠ .eok → ∃ w', w'.st = s' ∧ Pending im.toImage w lay [] w' lay) by
    obtain ⟨rc, s', hret', hrc⟩ := hrest
    exact ⟨rc, s', threadCreate_returns a (hp₁.inv.place hlive₁) hret₁ hret₃ hret', hrc⟩
  rcases hcase₃ with ⟨rfl, hp₃⟩ | ⟨hstack, hp₃⟩
  · have hp₄ := hp₃.store (List.mem_singleton_self _) 12 (by norm_num [sizeofThread]) 0
    obtain ⟨w₅, hfree, hp₅⟩ := hp₄.freeLast a
    simp only [Nat.zero_mod, if_true]
    refine ⟨.enomem, w₅.st, Outcome.returns_const ?_, fun _ => ⟨_, rfl, hp₅⟩⟩
    simp only [bind_apply, hfree, Outcome.ok_bind, pure_apply]
  · obtain ⟨-, hlive₃⟩ := hp₃.fresh (stack, threadStackSize) (by simp)
    obtain ⟨-, -, hlt₃⟩ := hp₃.inv.place hlive₃
    have hmod : stack % 2 ^ 32 = stack := Nat.mod_eq_of_lt (by omega)
    have hp₄ := hp₃.store (p := thread) (List.mem_cons_of_mem _ (List.mem_singleton_self _)) 12
      (by norm_num [sizeofThread]) stack
    simp only [hmod, hstack, if_false]
    exact threadCreateWith_spec hw a hp₄ ((Memory.word_setWord_self ..).trans hmod) h4 hlt entry data flags

/-! ### `process_create` -/

section ProcessBlocks

variable {process uthread : ℕ}

/-- The two blocks of a process do not overlap. -/
theorem processBlocks_apart
    (h : Pending im.toImage w lay [(uthread, sizeofUthread), (process, sizeofProcess)] w' lay') :
    Placed process sizeofProcess ∧ Placed uthread sizeofUthread ∧
      (process + sizeofProcess ≤ uthread ∨ uthread + sizeofUthread ≤ process) := by
  obtain ⟨-, hlivep⟩ := h.fresh (process, sizeofProcess) (by simp)
  obtain ⟨-, hliveu⟩ := h.fresh (uthread, sizeofUthread) (by simp)
  have hne : process ≠ uthread := fun heq => by
    have hnd := h.nodup
    simp [heq] at hnd
  exact ⟨h.inv.place hlivep, h.inv.place hliveu,
    h.inv.held_apart hlivep hliveu hne (by norm_num [sizeofProcess]) (by norm_num [sizeofUthread])⟩

/-- The links of the list of user space threads are in the two blocks. -/
theorem processBlocks_links {x : ℕ}
    (hx : ∀ q ∈ [(uthread, sizeofUthread), (process, sizeofProcess)], x < q.1 ∨ q.1 + q.2 ≤ x) :
    OutsideLinks [uthread, process + 28] x := by
  intro b hb
  have hp := hx (process, sizeofProcess) (by simp)
  have hu := hx (uthread, sizeofUthread) (by simp)
  simp only [List.mem_cons, List.not_mem_nil, or_false] at hb
  simp only [sizeofProcess, sizeofUthread] at hp hu
  omega

/-- The links of the list of user space threads do not overlap. -/
theorem processBlocks_spread (hp : Placed process sizeofProcess) (hu : Placed uthread sizeofUthread)
    (hap : process + sizeofProcess ≤ uthread ∨ uthread + sizeofUthread ≤ process) :
    Spread [uthread, process + 28] := by
  obtain ⟨h5, h6, h7⟩ := hp
  obtain ⟨h8, h9, h10⟩ := hu
  simp only [sizeofProcess, sizeofUthread] at h7 h10 hap
  refine ⟨fun b hb => ?_, fun b hb c hc => ?_⟩
  · simp only [List.mem_cons, List.not_mem_nil, or_false] at hb
    omega
  · simp only [List.mem_cons, List.not_mem_nil, or_false] at hb hc
    omega

/-- **A process with its user space thread in the list.** -/
theorem processFields_spec
    (h : Pending im.toImage w lay [(uthread, sizeofUthread), (process, sizeofProcess)] w' lay')
    (image size : ℕ) :
    ∃ m₁ m₂, KernelImage.processFields process uthread image size w'.st = .ok ((), { w'.st with mem := m₁ }) ∧
      listAppend (process + 28) uthread { w'.st with mem := m₁ } = .ok ((), { w'.st with mem := m₂ }) ∧
      Links.Ring (linksOf m₂) (process + 28) [uthread] ∧
      Pending im.toImage w lay [(uthread, sizeofUthread), (process, sizeofProcess)]
        ⟨{ w'.st with mem := m₂ }, w'.live⟩ lay' := by
  obtain ⟨hp, hu, hap⟩ := processBlocks_apart h
  obtain ⟨m₁, hfields, hring₁, hout₁⟩ := processFields_apply image size (s := w'.st) hp hu hap
  have hp₁ := h.write fun x hx =>
    hout₁ x (hx (process, sizeofProcess) (by simp)) (hx (uthread, sizeofUthread) (by simp))
  obtain ⟨m₂, happ, hring₂, hout₂⟩ := listAppend_spec (s := { w'.st with mem := m₁ }) hring₁
    (processBlocks_spread hp hu hap) (by
      simp only [sizeofProcess, sizeofUthread] at hap
      simp only [List.mem_cons, List.not_mem_nil, or_false]
      omega)
  exact ⟨m₁, m₂, hfields, happ, hring₂, hp₁.write fun x hx => hout₂ x (processBlocks_links hx)⟩

/-- **A process without a main thread** is given up. -/
theorem processUndo_apply (a : FrameAllocator im.toImage)
    (h : Pending im.toImage w lay [(uthread, sizeofUthread), (process, sizeofProcess)] w' lay')
    (hring : Links.Ring (linksOf w'.st.mem) (process + 28) [uthread]) (rc : Errno) :
    ∃ w'', (do
      listRemove uthread
      a.release uthread
      a.release process
      return rc) w'.st = .ok (rc, w''.st) ∧ Pending im.toImage w lay [] w'' lay := by
  obtain ⟨hp, hu, hap⟩ := processBlocks_apart h
  have hring' : Links.Ring (linksOf w'.st.mem) (process + 28) ([] ++ uthread :: []) := hring
  obtain ⟨m₁, hrem, -, hout⟩ := listRemove_spec hring'
    ((processBlocks_spread hp hu hap).subset (by simp))
  have hp₁ := h.write fun x hx => hout x fun b hb =>
    processBlocks_links hx b (by simpa [or_comm] using hb)
  obtain ⟨s₂, w₃, hfree₂, hfree₃, hp₃⟩ := hp₁.freeBoth a
  refine ⟨w₃, ?_, hp₃⟩
  simp only [bind_apply, hrem, hfree₂, hfree₃, Outcome.ok_bind, pure_apply]

/-- **Without a main thread** both blocks of a process are freed. -/
theorem processCreateWith_noThread (a : FrameAllocator im.toImage)
    (h : Pending im.toImage w lay [(uthread, sizeofUthread), (process, sizeofProcess)] w' lay')
    {image size pprocess : ℕ} {m₁ m₂ : Memory} {w₃ : HeapRun} {rc : Errno}
    (hfields : KernelImage.processFields process uthread image size w'.st = .ok ((), { w'.st with mem := m₁ }))
    (happ : listAppend (process + 28) uthread { w'.st with mem := m₁ } = .ok ((), { w'.st with mem := m₂ }))
    (hring₂ : Links.Ring (linksOf m₂) (process + 28) [uthread])
    (hp₂ : Pending im.toImage w lay [(uthread, sizeofUthread), (process, sizeofProcess)]
      ⟨{ w'.st with mem := m₂ }, w'.live⟩ lay')
    (hret : Outcome.Returns (fun fuel => im.threadCreate a (uthread + 8) im.processStub process tfNewVmm fuel
      { w'.st with mem := m₂ }) (rc, w₃.st)) (hrc : rc ≠ .eok)
    (hp : Pending im.toImage ⟨{ w'.st with mem := m₂ }, w'.live⟩ lay' [] w₃ lay') :
    ∃ w'', Outcome.Returns
        (fun fuel => im.processCreateWith a pprocess process uthread image size fuel w'.st) (rc, w''.st) ∧
      Pending im.toImage w lay [] w'' lay := by
  obtain ⟨-, hlivep⟩ := h.fresh (process, sizeofProcess) (by simp)
  obtain ⟨-, hliveu⟩ := h.fresh (uthread, sizeofUthread) (by simp)
  -- the list of the process is as it was before the call of `thread_create`
  have hring₃ : Links.Ring (linksOf w₃.st.mem) (process + 28) [uthread] := by
    refine hring₂.congr fun b hb => linksOf_congr fun x hx hx' => ?_
    rcases List.mem_cons.mp hb with rfl | hb
    · refine (hp.kept (Or.inr ⟨process, sizeofProcess, hlivep, by omega, ?_⟩)).2
      simp only [sizeofProcess]
      omega
    · rw [List.mem_singleton] at hb
      refine (hp.kept (Or.inr ⟨uthread, sizeofUthread, hliveu, by omega, ?_⟩)).2
      simp only [sizeofUthread]
      omega
  obtain ⟨w₄, hrun, hp₄⟩ := processUndo_apply a (hp₂.trans hp) hring₃ rc
  refine ⟨w₄, ?_, hp₄⟩
  simp only [KernelImage.processCreateWith, bind_apply, hfields, happ, Outcome.ok_bind]
  refine hret.bind (Outcome.returns_const ?_)
  simp only [ne_eq, hrc, not_false_eq_true, if_true]
  exact hrun

/-- **`process_create` with the two blocks.** -/
theorem processCreateWith_spec (hw : WellFormed im w lay ready) (a : FrameAllocator im.toImage)
    (h : Pending im.toImage w lay [(uthread, sizeofUthread), (process, sizeofProcess)] w' lay')
    {pprocess : ℕ} (h4 : pprocess % 4 = 0) (hlt : pprocess < 2 ^ 32) (image size : ℕ) :
    ∃ rc s', Outcome.Returns
        (fun fuel => im.processCreateWith a pprocess process uthread image size fuel w'.st) (rc, s') ∧
      (rc ≠ .eok → ∃ w'', w''.st = s' ∧ Pending im.toImage w lay [] w'' lay) := by
  obtain ⟨-, hliveu⟩ := h.fresh (uthread, sizeofUthread) (by simp)
  obtain ⟨h5, -, h7⟩ := h.inv.place hliveu
  simp only [sizeofUthread] at h7
  obtain ⟨m₁, m₂, hfields, happ, hring₂, hp₂⟩ := processFields_spec h image size
  -- the main thread
  obtain ⟨rc, s₃, hret, hrc⟩ := threadCreate_spec (hw.pending hp₂) a
    (show (uthread + 8) % 4 = 0 by omega) (show uthread + 8 < 2 ^ 32 by omega) im.processStub process tfNewVmm
  by_cases hok : rc = .eok
  · subst hok
    simp only [KernelImage.processCreateWith, bind_apply, hfields, happ, Outcome.ok_bind]
    refine ⟨.eok, ?s, hret.bind (Outcome.returns_const ?run), fun hne => absurd rfl hne⟩
    case run =>
      simp (disch := omega) only [ne_eq, not_true_eq_false, if_false, bind_apply, store_apply, Outcome.ok_bind,
        pure_apply]
      exact rfl
  · obtain ⟨w₃, rfl, hp⟩ := hrc hok
    obtain ⟨w₄, hret', hp₄⟩ := processCreateWith_noThread a h hfields happ hring₂ hp₂ hret hok hp
    exact ⟨rc, w₄.st, hret', fun _ => ⟨w₄, rfl, hp₄⟩⟩

end ProcessBlocks

/-- **`process_create` with two control blocks.** -/
theorem processCreate_returns (a : FrameAllocator im.toImage) {process uthread : ℕ} {s s₁ s₂ s' : HeapState}
    {pprocess image size : ℕ} {rc : Errno} (hprocess : process ≠ 0) (huthread : uthread ≠ 0)
    (hret₁ : Outcome.Returns (fun fuel => a.malloc sizeofProcess fuel s) (process, s₁))
    (hret₂ : Outcome.Returns (fun fuel => a.malloc sizeofUthread fuel s₁) (uthread, s₂))
    (hret : Outcome.Returns
      (fun fuel => im.processCreateWith a pprocess process uthread image size fuel s₂) (rc, s')) :
    Outcome.Returns (fun fuel => im.processCreate a pprocess image size fuel s) (rc, s') := by
  simp only [KernelImage.processCreate, bind_apply]
  refine hret₁.bind ?_
  simp only [hprocess, if_false, bind_apply]
  refine hret₂.bind ?_
  simp only [huthread, if_false]
  exact hret

/-- **`process_create`** returns; with an error nothing is left of it. -/
theorem processCreate_spec (hw : WellFormed im w lay ready) (a : FrameAllocator im.toImage) {pprocess : ℕ}
    (h4 : pprocess % 4 = 0) (hlt : pprocess < 2 ^ 32) (image size : ℕ) :
    ∃ rc s', Outcome.Returns (fun fuel => im.processCreate a pprocess image size fuel w.st) (rc, s') ∧
      (rc ≠ .eok → ∃ w', w'.st = s' ∧ Pending im.toImage w lay [] w' lay) := by
  obtain ⟨process, s₁, lay₁, -, hret₁, -, hcase₁⟩ := (Pending.refl hw.inv hw.apart).malloc a
    (show sizeofProcess ≤ heapBlockSizeMax by norm_num [sizeofProcess, heapBlockSizeMax])
  rcases hcase₁ with ⟨rfl, hp₁⟩ | ⟨hprocess, hp₁⟩
  · refine ⟨.enomem, s₁, ?_, fun _ => ⟨_, rfl, hp₁⟩⟩
    simp only [KernelImage.processCreate, bind_apply]
    exact hret₁.bind (Outcome.returns_const rfl)
  obtain ⟨uthread, s₂, lay₂, -, hret₂, -, hcase₂⟩ := hp₁.malloc a
    (show sizeofUthread ≤ heapBlockSizeMax by norm_num [sizeofUthread, heapBlockSizeMax])
  rcases hcase₂ with ⟨rfl, hp₂⟩ | ⟨huthread, hp₂⟩
  · obtain ⟨w₃, hfree, hp₃⟩ := hp₂.freeLast a
    simp only [KernelImage.processCreate, bind_apply]
    refine ⟨.enomem, w₃.st, hret₁.bind ?_, fun _ => ⟨_, rfl, hp₃⟩⟩
    simp only [hprocess, if_false, bind_apply]
    refine hret₂.bind ?_
    simp only [if_true, bind_apply, hfree, Outcome.ok_bind, pure_apply]
    exact Outcome.returns_const rfl
  · obtain ⟨rc, s', hret, hrc⟩ := processCreateWith_spec hw a hp₂ h4 hlt image size
    exact ⟨rc, s', processCreate_returns a hprocess huthread hret₁ hret₂ hret, hrc⟩

/-! ### Calls that fail -/

/-- **Nothing has happened**: the heaps and their list, the frames that are out, `runnable_list`,
`last_asid`, the other data of the image, and every byte of a client are as in the state `w`. -/
structure NoTrace (im : KernelImage) (w : HeapRun) (lay : List HeapDesc) (ready : List ℕ) (s' : HeapState) :
    Prop where
  layout : LayoutAt s'.mem im.heapList lay
  frames : (HeapCall.outstanding s'.calls).Perm (HeapCall.outstanding w.st.calls)
  runnable : Links.Ring (linksOf s'.mem) im.runnableList ready
  lastAsid : s'.mem im.lastAsid = w.st.mem im.lastAsid
  image : ∀ x, im.Data x → s'.mem x = w.st.mem x
  clients : ∀ p x, w.Held p x → s'.mem x = w.st.mem x

theorem WellFormed.noTrace (hw : WellFormed im w lay ready) (h : Pending im.toImage w lay [] w' lay) :
    NoTrace im w lay ready w'.st := by
  obtain ⟨hat, hframes⟩ := h.none hw.inv
  exact ⟨hat, hframes, (hw.pending h).runnable, h.data _ im.lastAsid_data, h.data, h.clients⟩

theorem Creation.run_spec (hw : WellFormed im w lay ready) (a : FrameAllocator im.toImage) (c : Creation)
    {cell : ℕ} (h4 : cell % 4 = 0) (hlt : cell < 2 ^ 32) :
    ∃ rc s', Outcome.Returns (fun fuel => c.run im a cell fuel w.st) (rc, s') ∧
      (rc ≠ .eok → ∃ w', w'.st = s' ∧ Pending im.toImage w lay [] w' lay) := by
  cases c with
  | thread entry data flags => exact threadCreate_spec hw a h4 hlt entry data flags
  | process image size => exact processCreate_spec hw a h4 hlt image size

/-- **Failed creation leaves no trace.**  In every well-formed state and with every frame allocator,
`thread_create` and `process_create` return; when they return an error, nothing has happened, and the
pointer of the caller at `cell` is not written. -/
theorem failed_creation_no_trace (hw : WellFormed im w lay ready) (a : FrameAllocator im.toImage)
    (c : Creation) {cell : ℕ} (h4 : cell % 4 = 0) (hcell : Owned im w cell 4) :
    (∃ r, Outcome.Returns (fun fuel => c.run im a cell fuel w.st) r) ∧
      ∀ rc s', Outcome.Returns (fun fuel => c.run im a cell fuel w.st) (rc, s') → rc ≠ .eok →
        NoTrace im w lay ready s' ∧ s'.mem.word cell = w.st.mem.word cell := by
  have hlt := hw.address hcell
  obtain ⟨rc, s₁, hret, hrc⟩ := c.run_spec hw a h4 (by omega)
  refine ⟨⟨_, hret⟩, fun rc' s' hret' herr => ?_⟩
  obtain ⟨rfl, rfl⟩ := Prod.mk.inj (hret.unique hret')
  obtain ⟨w', rfl, hp⟩ := hrc herr
  exact ⟨hw.noTrace hp, hp.word hcell⟩

/-- An image with the four variables at 0x80001000. -/
def smallImage : KernelImage where
  lo := 0x80001000
  hi := 0x80002000
  heapList := 0x80001000
  heapList_in := by norm_num
  runnableList := 0x80001008
  currentThread := 0x80001010
  lastAsid := 0x80001014
  threadStub := 0x80001800
  processStub := 0x80001900
  addresses := by norm_num
  aligned := by norm_num
  runnableList_data := fun x h1 h2 => by simp only [Image.Data]; omega
  currentThread_data := fun x h1 h2 => by simp only [Image.Data]; omega
  lastAsid_data := by simp only [Image.Data]; omega
  lastAsid_apart := by norm_num

/-- A frame allocator with sixteen frames, for the first call. -/
def oneHeap : FrameAllocator smallImage.toImage where
  alloc calls cnt := if calls.isEmpty then sixteenFrames cnt else none
  free _ _ _ := .eok
  alloc_ok calls cnt phys h := by
    cases calls with
    | nil => exact sixteenFrames_ok cnt phys h
    | cons c calls => cases h
  alloc_apart calls cnt phys h := by
    cases calls with
    | nil =>
      have hok := (sixteenFrames_ok cnt phys h).kernelApart
      simp only [List.isEmpty_nil, if_true, sixteenFrames] at h
      split at h
      · cases h
        exact Or.inl (by norm_num [smallImage])
      · cases h
    | cons c calls => cases h
  free_ok _ _ _ := rfl

/-- A frame allocator without frames. -/
def noFrames : FrameAllocator smallImage.toImage where
  alloc _ _ := none
  free _ _ _ := .eok
  alloc_ok _ _ _ h := nomatch h
  alloc_apart _ _ _ h := nomatch h
  free_ok _ _ _ := rfl

/-- The address of the first block of the heap, which is the main thread. -/
def mainThread : ℕ := 0x80200024

/-- The state before `heap_init`, with the main thread in `runnable_list` and in `current_thread`. -/
def smallState : HeapState :=
  { zeroState with
    mem := ((zeroState.mem.setWord 0x80001008 mainThread).setWord (0x80001008 + 4) mainThread).setWord
      0x80001010 mainThread }

/-- The state after `heap_init`. -/
def smallRun : HeapRun where
  st := { smallState with
    mem := (smallState.mem.setWord 0x80001000 0x80001000).setWord (0x80001000 + 4) 0x80001000 }
  live := fun _ => none

theorem smallRun_init : Init 0x80001000 smallRun :=
  ⟨by norm_num, by norm_num, by norm_num, rfl, smallState, rfl, rfl,
    heapInit_apply (by norm_num) (by norm_num) (by norm_num) smallState⟩

/-- The blocks of the main thread and of a client, and 5000 free bytes behind them. -/
def smallBlocks : List Block := [⟨116, false⟩, ⟨60400, false⟩, ⟨5000, true⟩]

/-- The main thread and the client have got their blocks, and the links of the main thread are set. -/
theorem smallHeap : ∃ w, WellFormed smallImage w [frameHeap smallBlocks] [mainThread] ∧
    w.st.mem.word smallImage.currentThread = mainThread := by
  obtain ⟨p, s₁, lay₁, cs, -, halloc, hcase⟩ :=
    (Pending.refl smallRun_init.inv (by simp [Image.Apart])).malloc oneHeap
      (show sizeofThread ≤ heapBlockSizeMax by norm_num [sizeofThread, heapBlockSizeMax])
  have hframes : framesFor (realSize sizeofThread) = 16 := by norm_num [framesFor, realSize, sizeofThread]
  have hgrant : oneHeap.alloc smallRun.st.calls (framesFor (realSize sizeofThread)) = some 0x200000 := by
    rw [hframes]
    rfl
  obtain ⟨hlay₁, hpay, -⟩ := halloc.first hgrant
  obtain rfl : lay₁ = [frameHeap [⟨116, false⟩, ⟨65400, true⟩]] :=
    hlay₁.trans (congrArg (· :: []) (newHeap_sixteen hframes))
  obtain rfl : p = mainThread := hpay
  have hp₁ := (hcase.resolve_left fun h => absurd h.1 (by decide)).2
  -- the client takes most of the rest
  obtain ⟨s₂, -, hp₂⟩ := hp₁.mallocTail noFrames (show 60376 ≤ heapBlockSizeMax by norm_num [heapBlockSizeMax])
    [⟨116, false⟩] 65400 rfl (by simp) (by decide)
  have hmem : (mainThread, sizeofThread) ∈
      [((frameHeap [⟨116, false⟩, ⟨65400, true⟩]).payload [⟨116, false⟩], 60376), (mainThread, sizeofThread)] :=
    by simp
  have hp₃ := hp₂.store hmem 0 (by decide) smallImage.runnableList
  have hp₄ := hp₃.store hmem 4 (by decide) smallImage.runnableList
  -- the words of the image are those of the boot
  have hdata : ∀ x, 0x80001008 ≤ x → x + 4 ≤ 0x80002000 → Owned smallImage smallRun x 4 :=
    fun x h1 h2 y h3 h4 => Or.inl (by simp only [Image.Data, smallImage]; omega)
  have hprev := HeapRun.Pending.word hp₄ (hdata 0x80001008 (by norm_num) (by norm_num))
  have hnext := HeapRun.Pending.word hp₄ (hdata (0x80001008 + 4) (by norm_num) (by norm_num))
  have hcurrent := HeapRun.Pending.word hp₄ (hdata 0x80001010 (by norm_num) (by norm_num))
  have hmod : mainThread % 2 ^ 32 = mainThread := rfl
  simp (disch := omega) only [smallRun, smallState, Memory.word_setWord_of_ne, Memory.word_setWord_self,
    hmod] at hprev hnext hcurrent
  have hthread : IsThread _ mainThread := ⟨sizeofThread, (hp₄.fresh _ hmem).2, le_rfl⟩
  refine ⟨_, ⟨hp₄.inv, hp₄.imageApart, ⟨⟨?_, ?_, ?_, ?_⟩, by decide⟩, ?_, Or.inr ?_⟩, hcurrent⟩
  · exact (congrArg ptr hnext).trans rfl
  · simp only [linksOf]
    rw [Memory.word_setWord_of_ne (by decide) (by decide) (by decide), Nat.add_zero, Memory.word_setWord_self]
    rfl
  · simp only [linksOf]
    rw [Memory.word_setWord_self]
    rfl
  · exact (congrArg ptr hprev).trans rfl
  · intro t ht
    rw [List.mem_singleton.mp ht]
    exact hthread
  · exact (congrArg (IsThread _) hcurrent).mpr hthread

/-- **The map of the new main thread does not fit.**  The blocks of a thread and of its stack do. -/
theorem smallThread_fails {w : HeapRun} {lay : List HeapDesc} {ready : List ℕ}
    (hw : WellFormed smallImage w lay ready) (pre : List Block)
    (hlay : lay = [frameHeap (pre ++ [⟨4880, true⟩])]) (hpre : ∀ b ∈ pre, b.free = false) (pthread entry data : ℕ) :
    ∃ w', Outcome.Returns (fun fuel => smallImage.threadCreate noFrames pthread entry data tfNewVmm fuel w.st)
        (.enomem, w'.st) ∧ Pending smallImage.toImage w lay [] w' lay := by
  subst hlay
  obtain ⟨s₁, hret₁, hp₁⟩ := (Pending.refl hw.inv hw.apart).mallocTail noFrames
    (show sizeofThread ≤ heapBlockSizeMax by norm_num [sizeofThread, heapBlockSizeMax]) pre 4880 rfl hpre
    (by decide)
  generalize hthread : (frameHeap (pre ++ [⟨4880, true⟩])).payload pre = thread at hret₁ hp₁
  obtain ⟨-, hlive₁⟩ := hp₁.fresh (thread, sizeofThread) (by simp)
  have hp₂ := hp₁.store (List.mem_singleton_self _) 8 (by norm_num [sizeofThread]) threadStackSize
  -- the stack
  obtain ⟨s₃, hret₃, hp₃⟩ := hp₂.mallocTail noFrames
    (show threadStackSize ≤ heapBlockSizeMax by norm_num [threadStackSize, heapBlockSizeMax])
    (pre ++ [⟨116, false⟩]) 4764 (by rw [List.append_assoc]; rfl)
    (by simpa [or_imp, forall_and] using hpre) (by decide)
  generalize hstack : HeapDesc.payload _ (pre ++ [⟨116, false⟩]) = stack at hret₃ hp₃
  obtain ⟨-, hlive₃⟩ := hp₃.fresh (stack, threadStackSize) (by simp)
  obtain ⟨-, h6, h7⟩ := hp₃.inv.place hlive₃
  have hmod : stack % 2 ^ 32 = stack := Nat.mod_eq_of_lt (by omega)
  have hp₄ := hp₃.store (p := thread) (List.mem_cons_of_mem _ (List.mem_singleton_self _)) 12
    (by norm_num [sizeofThread]) stack
  -- the map
  have hoff := hp₄.setIe false
  have hno : HeapM.NoFit (realSize sizeofVmm) [{ frameHeap (pre ++ [⟨4880, true⟩]) with
      blocks := (pre ++ [⟨116, false⟩]) ++ [⟨realSize threadStackSize, false⟩,
        ⟨4764 - realSize threadStackSize, true⟩] }] := by
    intro g hg b hb
    rw [List.mem_singleton.mp hg] at hb
    simp only [List.append_assoc, List.mem_append, List.mem_cons, List.not_mem_nil, or_false] at hb
    rcases hb with hb | rfl | rfl | rfl
    · simp [Block.fits, hpre b hb]
    · rfl
    · rfl
    · rfl
  obtain ⟨s₅, hret₅, hp₅⟩ := (Pending.refl hoff.inv hoff.imageApart).mallocFull noFrames
    (show sizeofVmm ≤ heapBlockSizeMax by norm_num [sizeofVmm, heapBlockSizeMax]) hno rfl
  have hmap := threadVmm_full (hw.pending hoff) noFrames thread (Nat.and_self tfNewVmm) hret₅
  obtain ⟨w', hret, hp⟩ := threadCreateWith_noMap noFrames hp₄ ((Memory.word_setWord_self ..).trans hmod)
    pthread entry data hmap hp₅
  refine ⟨w', threadCreate_returns noFrames (hp₁.inv.place hlive₁) hret₁ hret₃ ?_, hp⟩
  simp only [hmod, show stack ≠ 0 by omega, if_false]
  exact hret

/-- **A process without memory for its map.**  The blocks of the process, of its user space thread, of its
main thread and of the stack are allocated from the heap, the `malloc` in `vmm_create` returns `NULL`, and
the four blocks are freed. -/
theorem failed_creation_no_trace_noMap : ∃ w s', WellFormed smallImage w [frameHeap smallBlocks] [mainThread] ∧
    w.st.mem.word smallImage.currentThread = mainThread ∧
    Outcome.Returns (fun fuel => (Creation.process 0 0).run smallImage noFrames 0x80001018 fuel w.st)
      (.enomem, s') ∧
    NoTrace smallImage w [frameHeap smallBlocks] [mainThread] s' ∧
    s'.mem.word 0x80001018 = w.st.mem.word 0x80001018 := by
  obtain ⟨w, hw, hcurrent⟩ := smallHeap
  obtain ⟨s₁, hret₁, hp₁⟩ := (Pending.refl hw.inv hw.apart).mallocTail noFrames
    (show sizeofProcess ≤ heapBlockSizeMax by norm_num [sizeofProcess, heapBlockSizeMax])
    [⟨116, false⟩, ⟨60400, false⟩] 5000 rfl (by simp) (by decide)
  obtain ⟨s₂, hret₂, hp₂⟩ := hp₁.mallocTail noFrames
    (show sizeofUthread ≤ heapBlockSizeMax by norm_num [sizeofUthread, heapBlockSizeMax])
    [⟨116, false⟩, ⟨60400, false⟩, ⟨68, false⟩] 4932 rfl (by simp) (by decide)
  obtain ⟨m₁, m₂, hfields, happ, hring, hp₃⟩ := processFields_spec hp₂ 0 0
  obtain ⟨w₄, hret₄, hp₄⟩ := smallThread_fails (hw.pending hp₃)
    [⟨116, false⟩, ⟨60400, false⟩, ⟨68, false⟩, ⟨52, false⟩] rfl (by simp) (_ + 8) smallImage.processStub _
  obtain ⟨w₅, hret₅, -⟩ :=
    processCreateWith_noThread noFrames hp₂ hfields happ hring hp₃ hret₄ (by decide) hp₄
  have hret : Outcome.Returns
      (fun fuel => (Creation.process 0 0).run smallImage noFrames 0x80001018 fuel w.st) (.enomem, w₅.st) :=
    processCreate_returns noFrames (by decide) (by decide) hret₁ hret₂ hret₅
  have hcell : Owned smallImage w 0x80001018 4 := fun y h1 h2 => Or.inl (by
    simp only [Image.Data, smallImage]
    omega)
  obtain ⟨htrace, hkept⟩ :=
    (failed_creation_no_trace hw noFrames (.process 0 0) (by norm_num) hcell).2 _ _ hret (by decide)
  exact ⟨w, w₅.st, hw, hcurrent, hret, htrace, hkept⟩

end Kalisto
