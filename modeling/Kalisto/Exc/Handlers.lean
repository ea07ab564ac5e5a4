import Kalisto.Lib.MipsException
import Kalisto.Proc.Context

/-!
# The exception handlers of `head.S`

`SETUP_STATIC_AREA` of `include/asm.h`, `handle_tlb_refill` and `handle_general`, instruction by
instruction, up to and from their calls of compiled C code.
-/

namespace Kalisto

open Mips Mips.Exception

/-! ### `include/shared.h` -/

/-- `ADDR_IN_KSEG0 (KERNEL_STATIC_ADDR)`. -/
def kernelStaticArea : Word := 0x80000400

/-- `KERNEL_STATIC_SHIFT`. -/
def kernelStaticShift : ℕ := 10

/-- `KERNEL_STATIC_SIZE`. -/
def kernelStaticSize : ℕ := 0x400

/-- `ADDR_IN_KSEG1 (DEVICE_DORDER_ADDR)`. -/
def deviceDorder : Word := 0xB0000010

/-- The fields of the static area. -/
inductive StaticField where
  | epc
  | cause
  | badva
  | entryhi
  | status
  deriving DecidableEq, Repr

/-- `STATIC_OFFSET_…`. -/
def staticOffset : StaticField → ℕ
  | .epc => 0
  | .cause => 4
  | .badva => 8
  | .entryhi => 12
  | .status => 16

/-- `~(CP0_STATUS_KSU_MASK | CP0_STATUS_EXL_MASK | CP0_STATUS_IE_MASK)`. -/
def kernelMode : Word := ~~~(0x18 ||| 0x02 ||| cp0StatusIeMask)

/-! ### `include/asm.h` -/

/-- `SETUP_STATIC_AREA`. -/
def setupStaticArea (temp0 temp1 ptr : Reg) (displacement : ℕ) : List Insn :=
  [.plain (.la temp0 deviceDorder),
    .plain (.lw temp1 0 temp0),
    .sll temp0 temp1 kernelStaticShift,
    .plain (.la ptr (kernelStaticArea - BitVec.ofNat 32 displacement)),
    .addu ptr ptr temp0,
    .plain (.la temp0 (BitVec.ofNat 32 kernelStaticSize)),
    .addu ptr ptr temp0]

/-- LO and HI are saved. -/
def saveLoHi : List Instr :=
  [.mflo .t0, .mfhi .t1, .sw .t0 (regsOffset .lo) .sp, .sw .t1 (regsOffset .hi) .sp]

/-- LO and HI are loaded. -/
def loadLoHi : List Instr :=
  [.lw .t0 (regsOffset .lo) .sp, .lw .t1 (regsOffset .hi) .sp, .mtlo .t0, .mthi .t1]

/-- The call of C code with the frame as the argument. -/
def callHandler (link : Word) : List Insn :=
  [.or .a0 .zero .sp, .jal link (.addiu .sp .sp (-BitVec.ofNat 32 abiStackFrame))]

/-- The stack frame of the call is released. -/
def afterCall : List Instr := [.addiu .sp .sp (BitVec.ofNat 32 abiStackFrame)]

/-! ### `handle_tlb_refill` -/

/-- The stack pointer is saved, and the static area becomes the stack. -/
def refillSwitchStack : List Insn :=
  [.plain (.sw .sp (regsOffset (.reg .sp)) .k1), .or .sp .zero .k1]

/-- The registers of the exception are saved. -/
def refillSaveException : List Insn :=
  [.mfc0 .k0 .epc, .plain (.sw .k0 (regsOffset .epc) .sp),
    .mfc0 .k0 .cause, .plain (.sw .k0 (regsOffset .cause) .sp),
    .mfc0 .k0 .badvaddr, .plain (.sw .k0 (regsOffset .badva) .sp),
    .plain (.mfc0 .k0 .entryhi), .plain (.sw .k0 (regsOffset .entryhi) .sp),
    .plain (.mfc0 .k0 .status), .plain (.sw .k0 (regsOffset .status) .sp)]

/-- `handle_tlb_refill` up to the call of `wrapped_tlb_refill`. -/
def refillEntry (link : Word) : List Insn :=
  setupStaticArea .k0 .k1 .k1 contextSize ++ (refillSwitchStack ++ (plains (saveRegisters .sp) ++
    (plains saveLoHi ++ (refillSaveException ++ callHandler link))))

/-- The stack pointer is loaded last. -/
def refillLeave : List Insn := [.plain (.lw .sp (regsOffset (.reg .sp)) .sp), .eret]

/-- `handle_tlb_refill` after the call. -/
def refillExit : List Insn :=
  plains afterCall ++ (plains loadLoHi ++ (plains (loadRegisters .sp) ++ refillLeave))

/-! ### `handle_general` -/

/-- The registers of the exception are saved in the static area. -/
def generalSaveException : List Insn :=
  [.mfc0 .k0 .epc, .plain (.sw .k0 (staticOffset .epc) .k1),
    .mfc0 .k0 .cause, .plain (.sw .k0 (staticOffset .cause) .k1),
    .mfc0 .k0 .badvaddr, .plain (.sw .k0 (staticOffset .badva) .k1),
    .plain (.mfc0 .k0 .entryhi), .plain (.sw .k0 (staticOffset .entryhi) .k1),
    .plain (.mfc0 .k0 .status), .plain (.sw .k0 (staticOffset .status) .k1)]

/-- The exception level is left, with interrupts disabled and in kernel mode. -/
def generalLeaveLevel : List Insn :=
  [.plain (.la .k1 kernelMode), .plain (.and .k0 .k1), .plain (.mtc0 .k0 .status)]

/-- The frame on the current stack is allocated. -/
def generalAllocate : List Instr := [.addiu .sp .sp (-BitVec.ofNat 32 contextSize)]

/-- The registers of the exception are moved to the frame. -/
def generalMoveException : List Instr :=
  [.lw .t0 (staticOffset .epc) .t1, .sw .t0 (regsOffset .epc) .sp,
    .lw .t0 (staticOffset .cause) .t1, .sw .t0 (regsOffset .cause) .sp,
    .lw .t0 (staticOffset .badva) .t1, .sw .t0 (regsOffset .badva) .sp,
    .lw .t0 (staticOffset .entryhi) .t1, .sw .t0 (regsOffset .entryhi) .sp,
    .lw .t0 (staticOffset .status) .t1, .sw .t0 (regsOffset .status) .sp]

/-- `handle_general` up to the call of `wrapped_general`. -/
def generalEntry (link : Word) : List Insn :=
  setupStaticArea .k0 .k1 .k1 kernelStaticSize ++ (generalSaveException ++ (generalLeaveLevel ++
    (plains generalAllocate ++ (plains (saveRegisters .sp) ++ (plains saveLoHi ++
      (setupStaticArea .k0 .k1 .t1 kernelStaticSize ++ (plains generalMoveException ++
        callHandler link)))))))

/-- Status and EPC are moved back to the static area. -/
def generalMoveBack : List Instr :=
  [.lw .t0 (regsOffset .status) .sp, .sw .t0 (staticOffset .status) .t1,
    .lw .t0 (regsOffset .epc) .sp, .sw .t0 (staticOffset .epc) .t1]

/-- The frame is released. -/
def generalRelease : List Instr := [.addiu .sp .sp (BitVec.ofNat 32 contextSize)]

/-- EPC and Status are restored, and the exception is over. -/
def generalLeave : List Insn :=
  [.plain (.lw .k0 (staticOffset .epc) .k1), .mtc0 .k0 .epc,
    .plain (.lw .k0 (staticOffset .status) .k1), .plain (.mtc0 .k0 .status), .eret]

/-- `handle_general` after the call. -/
def generalExit : List Insn :=
  plains afterCall ++ (setupStaticArea .k0 .k1 .t1 kernelStaticSize ++ (plains generalMoveBack ++
    (plains loadLoHi ++ (plains (loadRegisters .sp) ++ (plains generalRelease ++
      (setupStaticArea .k0 .k1 .k1 kernelStaticSize ++ generalLeave))))))

end Kalisto
