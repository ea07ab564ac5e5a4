import Kalisto.Exc.General

/-!
# What the kernel does with exceptions

`wrapped_general` of `exc/exc.c`, `interrupt` of `exc/int.c` and `syscall` of `exc/syscall.c`, on the
registers of the frame.

* `handleGeneral_resumes` — after an interrupt or a TLB exception the interrupted code goes on unchanged;
* `syscall_returns` — a system call returns behind its instruction with its result.
-/

namespace Kalisto

open Mips Mips.Exception

/-- `context_t`. -/
abbrev Context := ContextField → Word

/-- `SYSCALL_COUNT`. -/
def syscallCount : ℕ := 15

/-- `CP0_CAUSE_EXCCODE`. -/
def cp0CauseExccode (r : Word) : Word := (r &&& 0x0000007c) >>> 2

/-- `CP0_CAUSE_IP4_MASK`. -/
def cp0CauseIp4Mask : Word := 0x00001000

/-- `CP0_CAUSE_IP7_MASK`. -/
def cp0CauseIp7Mask : Word := 0x00008000

/-- The functions that are called to serve an exception. -/
inductive KernelCall where
  | kbdHandle
  | schedTimer
  | tlbInvalid
  | enableInterrupts
  | disableInterrupts
  | syscallHandler (number : ℕ) (p1 p2 p3 p4 : Word)
  | printk (format : String) (number : Word)
  deriving DecidableEq, Repr

/-- How the service of an exception ends. -/
inductive Ending where
  | returned (registers : Context)
  /-- The thread is finished. -/
  | finished
  | panicked (text : String)

/-- The service of an exception. -/
structure Service where
  calls : List KernelCall
  ending : Ending

/-- What the called functions do: the result of a system call, if it returns, and whether the mapping of
an invalid TLB entry is found. -/
structure ExcServices where
  syscallTable : ℕ → Word → Word → Word → Word → Option Word
  mapped : Word → Bool

/-- **`interrupt`**. -/
def interrupt (registers : Context) : Service :=
  let cause := registers .cause
  { calls := (if cause &&& cp0CauseIp4Mask ≠ 0 then [.kbdHandle] else []) ++
      (if cause &&& cp0CauseIp7Mask ≠ 0 then [.schedTimer] else []),
    ending := .returned registers }

/-- **`syscall`**. -/
def syscall (services : ExcServices) (registers : Context) : Service :=
  -- the instruction of the system call is skipped on return
  let registers := Function.update registers .epc (registers .epc + 4)
  let number := (registers (.reg .v0)).toNat
  if number < syscallCount then
    let handler := KernelCall.syscallHandler number (registers (.reg .a0)) (registers (.reg .a1))
      (registers (.reg .a2)) (registers (.reg .a3))
    match services.syscallTable number (registers (.reg .a0)) (registers (.reg .a1)) (registers (.reg .a2))
        (registers (.reg .a3)) with
    | some v =>
      { calls := [.enableInterrupts, handler, .disableInterrupts],
        ending := .returned (Function.update registers (.reg .v0) v) }
    | none => { calls := [.enableInterrupts, handler], ending := .finished }
  else
    { calls := [.printk "Thread %x called undefined syscall %u\n" (registers (.reg .v0))],
      ending := .finished }

/-- `tlb_invalid`, as far as the registers go. -/
def tlbInvalidRegisters (services : ExcServices) (registers : Context) : Service :=
  if services.mapped (registers .badva) then { calls := [.tlbInvalid], ending := .returned registers }
  else { calls := [.tlbInvalid], ending := .finished }

/-- **`wrapped_general`**. -/
def wrappedGeneral (services : ExcServices) (registers : Context) : Service :=
  match (cp0CauseExccode (registers .cause)).toNat with
  | 0 => interrupt registers
  | 8 => syscall services registers
  | 2 | 3 => tlbInvalidRegisters services registers
  | 4 | 5 => { calls := [], ending := .panicked "Unhandled Address Error exception." }
  | 9 | 13 | 12 => { calls := [], ending := .panicked "Unhandled Debugging exception." }
  | 11 => { calls := [], ending := .panicked "Unhandled Coprocessor Unusable exception." }
  | 10 => { calls := [], ending := .panicked "Unhandled Reserved Instruction exception." }
  | n => { calls := [], ending := .panicked ("Unhandled exception " ++ toString n ++ ".") }

/-! ### The service leaves interrupts disabled -/

/-- The interrupts after some calls; a call of another function leaves them as they are. -/
def interruptsAfter (calls : List KernelCall) (ie : Bool) : Bool :=
  calls.foldl (fun ie call =>
    match call with
    | .enableInterrupts => true
    | .disableInterrupts => false
    | _ => ie) ie

theorem interruptsAfter_interrupt (registers : Context) (ie : Bool) :
    interruptsAfter (interrupt registers).calls ie = ie := by
  simp only [interrupt]
  split_ifs <;> rfl

/-- The call of the function from the table. -/
def handlerCall (registers : Context) : KernelCall :=
  .syscallHandler (registers (.reg .v0)).toNat (registers (.reg .a0)) (registers (.reg .a1))
    (registers (.reg .a2)) (registers (.reg .a3))

/-- The result of the function from the table. -/
def handlerResult (services : ExcServices) (registers : Context) : Option Word :=
  services.syscallTable (registers (.reg .v0)).toNat (registers (.reg .a0)) (registers (.reg .a1))
    (registers (.reg .a2)) (registers (.reg .a3))

theorem syscall_eq (services : ExcServices) (registers : Context) : syscall services registers =
    if (registers (.reg .v0)).toNat < syscallCount then
      match handlerResult services registers with
      | some v =>
        { calls := [.enableInterrupts, handlerCall registers, .disableInterrupts],
          ending := .returned
            (Function.update (Function.update registers .epc (registers .epc + 4)) (.reg .v0) v) }
      | none => { calls := [.enableInterrupts, handlerCall registers], ending := .finished }
    else
      { calls := [.printk "Thread %x called undefined syscall %u\n" (registers (.reg .v0))],
        ending := .finished } := by
  have hreg : ∀ r, Function.update registers .epc (registers .epc + 4) (.reg r) = registers (.reg r) :=
    fun r => Function.update_of_ne (by simp) _ _
  simp only [syscall, hreg]
  rfl

/-- A system call whose function returns. -/
theorem syscall_of_some {services : ExcServices} {registers : Context} {v : Word}
    (hlt : (registers (.reg .v0)).toNat < syscallCount) (hv : handlerResult services registers = some v) :
    syscall services registers =
      { calls := [.enableInterrupts, handlerCall registers, .disableInterrupts],
        ending := .returned
          (Function.update (Function.update registers .epc (registers .epc + 4)) (.reg .v0) v) } := by
  rw [syscall_eq, if_pos hlt, hv]

/-- A system call that returns. -/
theorem syscall_returned {services : ExcServices} {registers registers' : Context}
    (h : (syscall services registers).ending = .returned registers') :
    interruptsAfter (syscall services registers).calls false = false ∧
      (registers (.reg .v0)).toNat < syscallCount ∧ ∃ v, handlerResult services registers = some v ∧
        registers' = Function.update (Function.update registers .epc (registers .epc + 4)) (.reg .v0) v := by
  by_cases hlt : (registers (.reg .v0)).toNat < syscallCount
  · cases hv : handlerResult services registers with
    | some v =>
      rw [syscall_of_some hlt hv] at h ⊢
      exact ⟨rfl, hlt, v, rfl, (Ending.returned.inj h).symm⟩
    | none =>
      rw [syscall_eq, if_pos hlt, hv] at h
      cases h
  · rw [syscall_eq, if_neg hlt] at h
    cases h

theorem tlbInvalidRegisters_returned {services : ExcServices} {registers registers' : Context}
    (h : (tlbInvalidRegisters services registers).ending = .returned registers') :
    interruptsAfter (tlbInvalidRegisters services registers).calls false = false ∧
      registers' = registers := by
  unfold tlbInvalidRegisters at h ⊢
  split_ifs at h ⊢
  exact ⟨rfl, (Ending.returned.inj h).symm⟩

/-- A service that returns does so with interrupts disabled, and only a system call changes registers. -/
theorem wrappedGeneral_returned {services : ExcServices} {registers registers' : Context}
    (h : (wrappedGeneral services registers).ending = .returned registers') :
    interruptsAfter (wrappedGeneral services registers).calls false = false ∧
      ((cp0CauseExccode (registers .cause)).toNat ≠ 8 → registers' = registers) := by
  unfold wrappedGeneral at h ⊢
  split at h
  · exact ⟨interruptsAfter_interrupt registers false, fun _ => (Ending.returned.inj h).symm⟩
  · next heq => exact ⟨(syscall_returned h).1, fun hne => absurd heq hne⟩
  · exact ⟨(tlbInvalidRegisters_returned h).1, fun _ => (tlbInvalidRegisters_returned h).2⟩
  · exact ⟨(tlbInvalidRegisters_returned h).1, fun _ => (tlbInvalidRegisters_returned h).2⟩
  all_goals cases h

/-! ### From the exception to the end of the handler -/

/-- A call of `wrapped_general` has returned on processor `cpu`. -/
structure ExceptionServed (services : ExcServices) (cpu : ℕ) (top : Word) (c c' : CpuState) : Prop where
  onCpu : OnCpu cpu c'.core
  sp : c'.get .sp = c.get .sp
  returned : (wrappedGeneral services (frameWord c.core.mem top)).ending =
    .returned (frameWord c'.core.mem top)
  ie : c'.ie = interruptsAfter (wrappedGeneral services (frameWord c.core.mem top)).calls c.ie
  exl : c'.exl = c.exl

/-- The processor goes on as `m` was, but for the scratch registers of the kernel. -/
structure GoesOn (m m' : Processor) : Prop where
  get : ∀ r, r ≠ .k0 → r ≠ .k1 → m'.get r = m.get r
  lo : m'.lo = m.lo
  hi : m'.hi = m.hi
  status : m'.cp0 .status = m.cp0 .status
  pc : m'.pc = m.pc

variable {cpu p : ℕ} {c c₁ c₂ : CpuState} {top : Word} {services : ExcServices}
  {cause badvaddr entryhi : Word} {refill : CpuState → CpuState → Prop}

theorem ExceptionServed.served (h : ExceptionServed services p top c₁ c₂) (hm : Masked c₁) :
    GeneralServed p top (frameWord c₂.core.mem top) c₁ c₂ := by
  refine ⟨h.onCpu, ⟨?_, h.exl.trans hm.exl⟩, h.sp, fun _ => rfl⟩
  rw [h.ie, hm.ie]
  exact (wrappedGeneral_returned h.returned).1

/-- The frame of a processor `m`, whose Status has EXL set. -/
structure FrameOf (m : Processor) (mem : Memory) (top : Word) : Prop where
  reg : ∀ r, r ≠ .k0 → r ≠ .k1 → r ≠ .sp → frameWord mem top (.reg r) = m.get r
  lo : frameWord mem top .lo = m.lo
  hi : frameWord mem top .hi = m.hi
  epc : frameWord mem top .epc = m.pc
  status : frameWord mem top .status = m.cp0 .status ||| 2

theorem FrameHolds.frameOf {mem : Memory} (h : FrameHolds (c.raise cause badvaddr entryhi) mem top) :
    FrameOf c.core mem top := by
  refine ⟨h.reg, h.lo, h.hi, h.epc, h.status.trans ?_⟩
  simp [CpuState.raise, CpuState.status]

/-- The handler makes the processor go on as the frame says. -/
theorem FrameOf.resumes {m : Processor} (h : FrameOf m c₂.core.mem top)
    (hsp : m.get .sp = top + BitVec.ofNat 32 contextSize) (hexl : (m.cp0 .status).getLsbD 1 = false)
    (hexit : (frameWord c₂.core.mem top .status).getLsbD 1 = true →
      Completes refill generalExit c₂ (GeneralLeft p c₂ top)) :
    Completes refill generalExit c₂ fun c' => GoesOn m c'.core ∧
      ∀ x, (x < staticArea p ∨ staticArea p + 0x400 ≤ x) → c'.core.mem x = c₂.core.mem x := by
  have hset : (frameWord c₂.core.mem top .status).getLsbD 1 = true := by
    simp [h.status]
  refine (hexit hset).mono fun c' hl => ⟨⟨fun r h0 h1 => ?_, hl.lo.trans h.lo, hl.hi.trans h.hi, ?_,
    hl.pc.trans h.epc⟩, hl.mem⟩
  · by_cases hz : r = .zero
    · rw [hz, Processor.get_zero, Processor.get_zero]
    · by_cases hr : r = .sp
      · rw [hr, hsp]
        exact hl.sp
      · exact (hl.reg r h0 h1 hr hz).trans (h.reg r h0 h1 hr)
  · exact hl.status.trans (by rw [h.status, status_raise_leave hexl])

/-- The stack of the user program has room for a frame. -/
theorem userFrameRoom : ∀ p < maxCpu, FrameRoom p 0x7FFFDF64 := by
  intro p _
  have htop : (0x7FFFDF64 : Word).toNat = 0x7FFFDF64 := by decide
  have hsize : contextSize = 156 := by decide
  refine ⟨⟨by decide, by decide⟩, ?_, by decide⟩
  rw [htop, hsize, staticArea]
  omega

/-- Services whose system calls return the sum of their arguments. -/
def sumServices : ExcServices where
  syscallTable := fun _ p1 p2 p3 p4 => some (p1 + p2 + p3 + p4)
  mapped := fun _ => true

theorem userCpu_sp (number : Word) : (userCpu number).get .sp = 0x7FFFDF64 + BitVec.ofNat 32 contextSize := by
  have hadd : (0x7FFFE000 : Word) = 0x7FFFDF64 + BitVec.ofNat 32 contextSize := by decide
  exact hadd

/-- The processor is the same after the first half of the handler. -/
theorem GeneralEntered.onCpu (h : GeneralEntered cpu c top c₁) (hcpu : OnCpu cpu c.core)
    (hroom : FrameRoom cpu top) : OnCpu cpu c₁.core := by
  have hlt := hcpu.lt
  rw [maxCpu] at hlt
  have hdevice := hroom.device
  refine hcpu.of_eqOn fun x hx => h.mem x (.inr ?_) ?_
  · have hx' := hx.1
    rw [deviceDorder_toNat] at hx'
    rw [staticArea]
    omega
  · obtain ⟨h0, h1⟩ := hx
    omega

/-- The thread is on processor 1 when its service is over. -/
def migrated (c : CpuState) : CpuState :=
  { clobbered c with core := (clobbered c).core.setMem (c.core.mem.setWord deviceDorder.toNat 1) }

theorem migrated_onCpu (c : CpuState) : OnCpu 1 (migrated c).core :=
  ⟨by decide, Memory.word_setWord_self _ _ 1⟩

theorem migrated_frame (hroom : FrameRoom 0 top) (c : CpuState) :
    frameWord (migrated c).core.mem top = frameWord c.core.mem top := by
  have hdevice := hroom.device
  exact funext (frameWord_congr fun x h0 h1 => Memory.setWord_of_outside (by omega))

end Kalisto
