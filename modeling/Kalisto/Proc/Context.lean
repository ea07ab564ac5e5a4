import Kalisto.Include
import Kalisto.Lib.Mips

/-!
# The context of a thread

The layout of `context_t` of `include/c.h`, from which `include/offset.h` is generated, the macros
`SAVE_REGISTERS` and `LOAD_REGISTERS` of `include/asm.h`, `cpu_switch_context` of `head.S`, and the
initial context that `thread_create` makes.

* `run_cpuSwitchContext` — the frame it leaves on the old stack and what it takes from the new one.
-/

namespace Kalisto

open Mips

/-! ### The layout of `context_t` -/

/-- The fields of `context_t`. -/
inductive ContextField where
  | reg (r : Reg)
  | lo
  | hi
  | epc
  | cause
  | badva
  | entryhi
  | status
  deriving DecidableEq, Repr

/-- The fields of `context_t`, in their order; each is a word. -/
def contextFields : List ContextField :=
  [.reg .zero, .reg .at, .reg .v0, .reg .v1, .reg .a0, .reg .a1, .reg .a2, .reg .a3, .reg .t0, .reg .t1,
    .reg .t2, .reg .t3, .reg .t4, .reg .t5, .reg .t6, .reg .t7, .reg .t8, .reg .t9, .reg .s0, .reg .s1,
    .reg .s2, .reg .s3, .reg .s4, .reg .s5, .reg .s6, .reg .s7, .reg .k0, .reg .k1, .reg .gp, .reg .fp,
    .reg .sp, .reg .ra, .lo, .hi, .epc, .cause, .badva, .entryhi, .status]

/-- `REGS_OFFSET_…`. -/
def regsOffset (f : ContextField) : ℕ := 4 * contextFields.idxOf f

/-- `CONTEXT_SIZE`. -/
def contextSize : ℕ := 4 * contextFields.length

theorem mem_contextFields (f : ContextField) : f ∈ contextFields := by
  cases f with
  | reg r => cases r <;> decide
  | _ => decide

theorem regsOffset_injective : Function.Injective regsOffset := by
  intro f g h
  have hidx : contextFields.idxOf f = contextFields.idxOf g := by
    simp only [regsOffset] at h
    omega
  exact (List.idxOf_inj (mem_contextFields f)).mp hidx

theorem regsOffset_le (f : ContextField) : regsOffset f + 4 ≤ contextSize := by
  have h := List.idxOf_lt_length_of_mem (mem_contextFields f)
  simp only [regsOffset, contextSize]
  omega

theorem regsOffset_lt (f : ContextField) : regsOffset f < contextSize := by
  have h := regsOffset_le f
  omega

theorem regsOffset_aligned (f : ContextField) : regsOffset f % 4 = 0 := Nat.mul_mod_right 4 _

/-! ### `include/asm.h` and `head.S` -/

/-- The registers of `SAVE_REGISTERS`, in their order. -/
def saveOrder : List Reg :=
  [.zero, .at, .v0, .v1, .a0, .a1, .a2, .a3, .t0, .t1, .t2, .t3, .t4, .t5, .t6, .t7, .t8, .t9,
    .s0, .s1, .s2, .s3, .s4, .s5, .s6, .s7, .gp, .fp, .ra]

/-- `SAVE_REGISTERS`. -/
def saveRegisters (base : Reg) : List Instr := saveOrder.map fun r => .sw r (regsOffset (.reg r)) base

/-- The registers of `LOAD_REGISTERS`, in their order. -/
def loadOrder : List Reg :=
  [.ra, .fp, .gp, .s7, .s6, .s5, .s4, .s3, .s2, .s1, .s0, .t9, .t8, .t7, .t6, .t5, .t4, .t3, .t2, .t1,
    .t0, .a3, .a2, .a1, .a0, .v1, .v0, .at, .zero]

/-- `LOAD_REGISTERS`. -/
def loadRegisters (base : Reg) : List Instr := loadOrder.map fun r => .lw r (regsOffset (.reg r)) base

/-- `CP0_STATUS_IE_MASK`. -/
def cp0StatusIeMask : Word := 0x00000001

/-- `CP0_STATUS_IM_MASK`. -/
def cp0StatusImMask : Word := 0x0000ff00

/-- `CP0_ENTRYHI_ASID_MASK`. -/
def cp0EntryhiAsidMask : Word := 0x000000ff

/-- The frame is allocated and the stack top of the old thread is stored. -/
def allocateFrame : List Instr := [.addiu .sp .sp (-BitVec.ofNat 32 contextSize), .sw .sp 0 .a0]

/-- LO, HI and Status are stored, and interrupts are disabled. -/
def storeSpecial : List Instr :=
  [.mflo .t0, .mfhi .t1, .sw .t0 (regsOffset .lo) .sp, .sw .t1 (regsOffset .hi) .sp,
    .mfc0 .t0 .status, .sw .t0 (regsOffset .status) .sp, .la .t1 (~~~cp0StatusIeMask), .and .t0 .t1,
    .mtc0 .t0 .status]

/-- The address space of the new thread is switched to. -/
def switchAddressSpace : List Instr :=
  [.mfc0 .t0 .entryhi, .la .t1 (~~~cp0EntryhiAsidMask), .and .t0 .t1, .or .t0 .a2, .mtc0 .t0 .entryhi]

/-- The stack of the new thread is switched to, and LO and HI are loaded. -/
def switchStack : List Instr :=
  [.lw .sp 0 .a1, .lw .t0 (regsOffset .lo) .sp, .lw .t1 (regsOffset .hi) .sp, .mtlo .t0, .mthi .t1]

/-- Control returns to the new thread; Status is restored in the branch delay slot. -/
def returnToNew : List Instr :=
  [.lw .k0 (regsOffset .status) .sp, .addiu .sp .sp (BitVec.ofNat 32 contextSize),
    .j .ra (.mtc0 .k0 .status)]

/-- **`cpu_switch_context`**. -/
def cpuSwitchContext : List Instr :=
  allocateFrame ++ (saveRegisters .sp ++ (storeSpecial ++ (switchAddressSpace ++
    (switchStack ++ (loadRegisters .sp ++ returnToNew)))))

/-! ### What it does -/

/-- The words that are stored in the frame. -/
def savedWords (m : Processor) : List (ContextField × Word) :=
  saveOrder.map (fun r => (.reg r, m.get r)) ++
    [(.lo, m.lo), (.hi, m.hi), (.status, m.cp0 .status)]

/-- Memory with the frame and the stack top of the old thread. -/
def savedMemory (m : Processor) (top : Word) : Memory :=
  stores regsOffset top.toNat (savedWords m) (m.mem.setWord (m.get .a0).toNat top.toNat)

theorem mem_saveOrder {r : Reg} (h0 : r ≠ .k0) (h1 : r ≠ .k1) (h2 : r ≠ .sp) : r ∈ saveOrder := by
  cases r <;> simp_all [saveOrder]

theorem savedWords_nodup (m : Processor) : ((savedWords m).map Prod.fst).Nodup := by
  simp only [savedWords, saveOrder, List.map_append, List.map_cons, List.map_nil]
  decide

variable {m : Processor} {top newTop : Word}

/-! The parts of `cpu_switch_context`, in their order. -/

theorem run_allocateFrame (htop : m.get .sp = top + BitVec.ofNat 32 contextSize)
    (ha0 : (m.get .a0).toNat % 4 = 0) :
    run allocateFrame m =
      .ok ((m.set .sp top).setMem (m.mem.setWord (m.get .a0).toNat top.toNat)) := by
  have hsub : m.get .sp + -BitVec.ofNat 32 contextSize = top := by
    rw [htop, BitVec.add_assoc, BitVec.add_right_neg, BitVec.add_zero]
  have haddr : (m.set .sp top).address .a0 0 = .ok (m.get .a0).toNat := by
    simp [Processor.address, ha0]
  simp only [allocateFrame, run_cons, exec, Outcome.ok_bind, hsub, haddr, Outcome.pure_eq, run_nil]
  simp

/-- The address of a field of the frame. -/
theorem address_field (h : Room top contextSize) (hsp : m.get .sp = top) (f : ContextField) :
    m.address .sp (regsOffset f) = .ok (top.toNat + regsOffset f) :=
  h.address hsp (regsOffset_lt f) (regsOffset_aligned f)

theorem run_storeSpecial (h : Room top contextSize) (hsp : m.get .sp = top) :
    (run storeSpecial m).Yields fun m' => m'.mem = stores regsOffset top.toNat
        [(.lo, m.lo), (.hi, m.hi), (.status, m.cp0 .status)] m.mem ∧
      (∀ r, r ≠ .t0 → r ≠ .t1 → m'.get r = m.get r) ∧ m'.cp0 .entryhi = m.cp0 .entryhi := by
  simp +contextual [storeSpecial, run_cons, exec, address_field h, hsp, Outcome.Yields, stores,
    Processor.get_set_of_ne, Processor.get_set_self, -Processor.get_set]

theorem run_switchAddressSpace :
    (run switchAddressSpace m).Yields fun m' => m'.mem = m.mem ∧
      (∀ r, r ≠ .t0 → r ≠ .t1 → m'.get r = m.get r) ∧
      m'.cp0 .entryhi = (m.cp0 .entryhi &&& ~~~cp0EntryhiAsidMask) ||| m.get .a2 := by
  simp +contextual [switchAddressSpace, run_cons, exec, Outcome.Yields, Processor.get_set_of_ne,
    Processor.get_set_self, -Processor.get_set]

/-- The word of a field of the frame at `top`. -/
def frameWord (mem : Memory) (top : Word) (f : ContextField) : Word :=
  BitVec.ofNat 32 (mem.word (top.toNat + regsOffset f))

theorem run_switchStack (h : Room top contextSize) (ha1 : (m.get .a1).toNat % 4 = 0)
    (htop : m.mem.word (m.get .a1).toNat = top.toNat) :
    (run switchStack m).Yields fun m' => m'.mem = m.mem ∧ m'.get .sp = top ∧ m'.cp0 = m.cp0 ∧
      m'.lo = frameWord m.mem top .lo ∧ m'.hi = frameWord m.mem top .hi := by
  have haddr : m.address .a1 0 = .ok (m.get .a1).toNat := by simp [Processor.address, ha1]
  simp [switchStack, run_cons, exec, address_field h, haddr, htop, Outcome.Yields, frameWord]

theorem run_returnToNew (h : Room top contextSize) (hsp : m.get .sp = top) :
    (run returnToNew m).Yields fun m' => m'.mem = m.mem ∧ m'.lo = m.lo ∧ m'.hi = m.hi ∧
      m'.get .sp = top + BitVec.ofNat 32 contextSize ∧
      (∀ r, r ≠ .k0 → r ≠ .sp → m'.get r = m.get r) ∧
      m'.cp0 .status = frameWord m.mem top .status ∧ m'.cp0 .entryhi = m.cp0 .entryhi ∧
      m'.pc = m.get .ra := by
  simp +contextual [returnToNew, run_cons, exec, address_field h, hsp, Outcome.Yields, frameWord,
    Processor.get_set_of_ne, Processor.get_set_self, -Processor.get_set]

theorem mem_loadOrder {r : Reg} (h0 : r ≠ .k0) (h1 : r ≠ .k1) (h2 : r ≠ .sp) : r ∈ loadOrder := by
  cases r <;> simp_all [loadOrder]

/-- The registers of the old thread are stored before the stack top changes any of them. -/
theorem map_saveOrder (v : Word) (mem : Memory) :
    saveOrder.map (fun r => (ContextField.reg r, ((m.set .sp v).setMem mem).get r)) =
      saveOrder.map fun r => (.reg r, m.get r) := by
  refine List.map_congr_left fun r hr => ?_
  have hne : r ≠ .sp := by
    rintro rfl
    simp [saveOrder] at hr
  rw [Processor.get_setMem, Processor.get_set_of_ne hne]

/-- **`cpu_switch_context`** leaves a frame with the registers below the stack of the old thread, and
takes the registers from the frame of the new one. -/
theorem run_cpuSwitchContext (hsp : m.get .sp = top + BitVec.ofNat 32 contextSize)
    (h : Room top contextSize) (ha0 : (m.get .a0).toNat % 4 = 0) (ha1 : (m.get .a1).toNat % 4 = 0)
    (hnew : (savedMemory m top).word (m.get .a1).toNat = newTop.toNat) (h' : Room newTop contextSize) :
    (run cpuSwitchContext m).Yields fun m' => m'.mem = savedMemory m top ∧
      (∀ r, r ≠ .k0 → r ≠ .k1 → r ≠ .sp → r ≠ .zero →
        m'.get r = frameWord (savedMemory m top) newTop (.reg r)) ∧
      m'.get .sp = newTop + BitVec.ofNat 32 contextSize ∧
      m'.lo = frameWord (savedMemory m top) newTop .lo ∧
      m'.hi = frameWord (savedMemory m top) newTop .hi ∧
      m'.cp0 .status = frameWord (savedMemory m top) newTop .status ∧
      m'.cp0 .entryhi = (m.cp0 .entryhi &&& ~~~cp0EntryhiAsidMask) ||| m.get .a2 ∧
      m'.pc = frameWord (savedMemory m top) newTop (.reg .ra) := by
  let m₁ := (m.set .sp top).setMem (m.mem.setWord (m.get .a0).toNat top.toNat)
  have hsp₁ : m₁.get .sp = top := by simp [m₁]
  let m₂ := m₁.setMem (stores regsOffset top.toNat (saveOrder.map fun r => (.reg r, m.get r)) m₁.mem)
  have hstores : run (saveRegisters .sp) m₁ = .ok m₂ := by
    rw [saveRegisters, run_stores h hsp₁ regsOffset_lt regsOffset_aligned .reg saveOrder, map_saveOrder]
  rw [cpuSwitchContext, run_append, run_allocateFrame hsp ha0, Outcome.ok_bind, run_append, hstores,
    Outcome.ok_bind, run_append]
  refine (run_storeSpecial (m := m₂) h hsp₁).bind fun m₃ ⟨hmem₃, hget₃, hent₃⟩ => ?_
  have hsaved : m₃.mem = savedMemory m top := by
    rw [hmem₃, savedMemory, savedWords, stores_append]
    rfl
  rw [run_append]
  refine run_switchAddressSpace.bind fun m₄ ⟨hmem₄, hget₄, hent₄⟩ => ?_
  have ha1₄ : m₄.get .a1 = m.get .a1 := by
    rw [hget₄ .a1 (by decide) (by decide), hget₃ .a1 (by decide) (by decide)]
    simp [m₂, m₁]
  have ha2₃ : m₃.get .a2 = m.get .a2 := by
    rw [hget₃ .a2 (by decide) (by decide)]
    simp [m₂, m₁]
  have htop₄ : m₄.mem.word (m₄.get .a1).toNat = newTop.toNat := by
    rw [ha1₄, hmem₄, hsaved, hnew]
  rw [run_append]
  refine (run_switchStack h' (ha1₄ ▸ ha1) htop₄).bind fun m₅ ⟨hmem₅, hsp₅, hcp₅, hlo₅, hhi₅⟩ => ?_
  obtain ⟨m₆, hrun₆, hmem₆, hlo₆, hhi₆, hcp₆, hin₆, hout₆⟩ := run_loads h' hsp₅ regsOffset_lt
    regsOffset_aligned .reg loadOrder (by decide)
  have hmem : m₅.mem = savedMemory m top := by rw [hmem₅, hmem₄, hsaved]
  have hget₆ : ∀ r, r ≠ .k0 → r ≠ .k1 → r ≠ .sp → r ≠ .zero →
      m₆.get r = frameWord (savedMemory m top) newTop (.reg r) := by
    intro r h0 h1 h2 hz
    rw [hin₆ r (mem_loadOrder h0 h1 h2) hz, hmem, frameWord]
  have hsp₆ : m₆.get .sp = newTop := by rw [hout₆ .sp (by decide), hsp₅]
  rw [run_append, loadRegisters, hrun₆, Outcome.ok_bind]
  refine (run_returnToNew h' hsp₆).mono ?_
  rintro m' ⟨hmem', hlo', hhi', hsp', hget', hst', hent', hpc'⟩
  refine ⟨by rw [hmem', hmem₆, hmem], fun r h0 h1 h2 hz => ?_, hsp', ?_, ?_, ?_, ?_, ?_⟩
  · rw [hget' r h0 h2, hget₆ r h0 h1 h2 hz]
  · rw [hlo', hlo₆, hlo₅, hmem₄, hsaved]
  · rw [hhi', hhi₆, hhi₅, hmem₄, hsaved]
  · rw [hst', hmem₆, hmem]
  · rw [hent', hcp₆, hcp₅, hent₄, hent₃, ha2₃]
    rfl
  · rw [hpc', hget₆ .ra (by decide) (by decide) (by decide) (by decide)]

/-! ### `thread_create` -/

/-- `THREAD_STACK_SIZE`. -/
def threadStackSize : ℕ := 4096

/-- `ABI_STACK_FRAME`. -/
def abiStackFrame : ℕ := 32

/-- `ADDR_IN_KSEG0 (x)`, on words. -/
def inKseg0 (x : Word) : Word := (x &&& 0x1FFFFFFF) ||| 0x80000000

/-- `thread->stack_top` of a new thread. -/
def initialTop (stackData : Word) : Word :=
  stackData + BitVec.ofNat 32 (threadStackSize - contextSize - abiStackFrame)

/-- The fields of the initial context that `thread_create` sets. -/
def initialWords (threadStub thread : Word) : List (ContextField × Word) :=
  [(.reg .ra, threadStub), (.reg .a0, thread), (.reg .gp, inKseg0 0),
    (.status, cp0StatusIeMask ||| cp0StatusImMask)]

theorem initialWords_nodup (threadStub thread : Word) :
    ((initialWords threadStub thread).map Prod.fst).Nodup := by
  simp only [initialWords, List.map_cons, List.map_nil]
  decide

/-- The stores of `thread_create` to the stack and to `thread->stack_top`, which is at `cell`. -/
def createContext (threadStub thread stackData cell : Word) (mem : Memory) : Memory :=
  stores regsOffset (initialTop stackData).toNat (initialWords threadStub thread)
    (mem.setWord cell.toNat (initialTop stackData).toNat)

end Kalisto
