import Kalisto.Lib.MipsRoutines
import Kalisto.Exc.Handlers

/-!
# The parts of the exception handlers

What `SETUP_STATIC_AREA` computes, and what the parts of the handlers that work in the static area leave
there.  These parts access only addresses that are not translated, so they run as if alone.
-/

namespace Kalisto

open Mips Mips.Exception

/-- The static area of a processor. -/
def staticArea (cpu : ℕ) : ℕ := 0x80000400 + 0x400 * cpu

/-- The code runs on processor `cpu`: this is what the dorder device says. -/
structure OnCpu (cpu : ℕ) (m : Processor) : Prop where
  lt : cpu < maxCpu
  dorder : m.mem.word deviceDorder.toNat = cpu

theorem setupStaticArea_ptr {cpu : ℕ} (hcpu : cpu < maxCpu) {displacement : ℕ} (hd : displacement ≤ 0x400) :
    (kernelStaticArea - BitVec.ofNat 32 displacement + BitVec.ofNat 32 cpu <<< kernelStaticShift +
      BitVec.ofNat 32 kernelStaticSize).toNat = staticArea cpu + 0x400 - displacement := by
  have harea : kernelStaticArea.toNat = 0x80000400 := by decide
  rw [maxCpu] at hcpu
  have hshift : (BitVec.ofNat 32 cpu <<< kernelStaticShift).toNat = 1024 * cpu := by
    rw [BitVec.toNat_shiftLeft, BitVec.toNat_ofNat, Nat.shiftLeft_eq, kernelStaticShift]
    rw [Nat.mod_eq_of_lt (show cpu < 2 ^ 32 by omega), Nat.mod_eq_of_lt (by omega), Nat.mul_comm]
  have hsub : (kernelStaticArea - BitVec.ofNat 32 displacement).toNat = 0x80000400 - displacement := by
    have hofNat : (BitVec.ofNat 32 displacement).toNat = displacement := by
      rw [BitVec.toNat_ofNat, Nat.mod_eq_of_lt (by omega)]
    rw [BitVec.toNat_sub_of_le, harea, hofNat]
    rw [BitVec.le_def, harea, hofNat]
    omega
  rw [BitVec.toNat_add, BitVec.toNat_add, hshift, hsub, BitVec.toNat_ofNat, kernelStaticSize, staticArea]
  omega

variable {cpu : ℕ} {c : CpuState}

/-- **`SETUP_STATIC_AREA`** with the scratch registers. -/
theorem setupStaticArea_calm (h : OnCpu cpu c.core) (hp : c.Protected) {ptr : Reg} (h0 : ptr ≠ .zero)
    (hk0 : ptr ≠ .k0) {displacement : ℕ} (hd : displacement ≤ 0x400) :
    Calm (setupStaticArea .k0 .k1 ptr displacement) c fun c' =>
      SameBut [.k0, .k1, ptr] c c' ∧ c'.core.mem = c.core.mem ∧
        (c'.get ptr).toNat = staticArea cpu + 0x400 - displacement := by
  have hptr := setupStaticArea_ptr h.lt hd
  have haddr : (c.set .k0 deviceDorder).core.address .k0 0 = .ok deviceDorder.toNat := by
    have hdev : deviceDorder.toNat % 4 = 0 := by decide
    simp [Processor.address, CpuState.set, hdev]
  have hunmapped : Unmapped deviceDorder := by
    constructor <;> decide
  refine calm_cons (not_mayMiss_of_none rfl) hp execInsn_la ?_
  refine calm_cons (not_mayMiss_of_unmapped (a := deviceDorder) ?_ hunmapped) (CpuState.set_protected.mpr hp)
    (execInsn_lw haddr) ?_
  · simp [access, CpuState.get, CpuState.set]
  rw [CpuState.set_mem, h.dorder]
  refine calm_cons (not_mayMiss_of_none rfl) (by simpa using hp) execInsn_sll ?_
  refine calm_cons (not_mayMiss_of_none rfl) (by simpa using hp) execInsn_la ?_
  refine calm_cons (not_mayMiss_of_none rfl) (by simpa using hp) execInsn_addu ?_
  refine calm_cons (not_mayMiss_of_none rfl) (by simpa using hp) execInsn_la ?_
  refine calm_cons (not_mayMiss_of_none rfl) (by simpa using hp) execInsn_addu ?_
  refine calm_nil ⟨?_, ?_, ?_⟩
  · have h0 : Reg.k0 ∈ [Reg.k0, .k1, ptr] := by simp
    have h1 : Reg.k1 ∈ [Reg.k0, .k1, ptr] := by simp
    have hptr : ptr ∈ [Reg.k0, .k1, ptr] := by simp
    exact ((((((SameBut.refl.set h0).set h1).set h0).set hptr).set hptr).set h0).set hptr
  · simp only [CpuState.set_mem]
  · have hz : Reg.k0 ≠ .zero := by decide
    have hz1 : Reg.k1 ≠ .zero := by decide
    rw [CpuState.get_set_self h0, CpuState.get_set_of_ne hk0, CpuState.get_set_self hz,
      CpuState.get_set_self h0, CpuState.get_set_self h0, CpuState.get_set_of_ne hk0.symm,
      CpuState.get_set_self hz, CpuState.get_set_self hz1, hptr]

/-! ### The memory of a processor -/

/-- The part of the static area that the refill handler uses: its frame and the stack below it. -/
def refillArea (cpu : ℕ) : Set ℕ := {x | staticArea cpu + 20 ≤ x ∧ x < staticArea cpu + 0x400}

/-- The register of the dorder device. -/
def dorderWord : Set ℕ := {x | deviceDorder.toNat ≤ x ∧ x < deviceDorder.toNat + 4}

theorem OnCpu.of_eqOn {m d : Processor} (h : OnCpu cpu d) (hm : Set.EqOn m.mem d.mem dorderWord) :
    OnCpu cpu m :=
  ⟨h.lt, (Memory.word_congr fun _ h0 h1 => hm ⟨h0, h1⟩).trans h.dorder⟩

theorem deviceDorder_toNat : deviceDorder.toNat = 0xB0000010 := by decide

theorem refillArea_disjoint (h : cpu < maxCpu) : Disjoint (refillArea cpu) dorderWord := by
  rw [Set.disjoint_left]
  rintro x ⟨-, h1⟩ ⟨h2, -⟩
  rw [maxCpu] at h
  rw [staticArea] at h1
  rw [deviceDorder_toNat] at h2
  omega

/-- The words of the static area that the general handler uses. -/
theorem staticOffset_lt (f : StaticField) : staticOffset f + 4 ≤ 20 := by
  cases f <;> decide

theorem staticOffset_aligned (f : StaticField) : staticOffset f % 4 = 0 := by
  cases f <;> rfl

theorem staticOffset_injective : Function.Injective staticOffset := by
  intro f g h
  cases f <;> cases g <;> first | rfl | simp [staticOffset] at h

/-- The words of the general handler are not translated. -/
theorem direct_static (h : cpu < maxCpu) {ptr : Word} (hptr : ptr.toNat = staticArea cpu) :
    Direct ptr 20 := by
  rw [maxCpu] at h
  rw [staticArea] at hptr
  exact ⟨⟨by omega, by omega⟩, by omega, by omega⟩

/-- A frame outside the memory that is the processor's own. -/
structure FrameRoom (cpu : ℕ) (top : Word) : Prop extends Room top contextSize where
  static : top.toNat + contextSize ≤ staticArea cpu ∨ staticArea cpu + 0x400 ≤ top.toNat
  device : top.toNat + contextSize ≤ deviceDorder.toNat ∨ deviceDorder.toNat + 4 ≤ top.toNat

variable {top ptr : Word} {d : Processor}

theorem FrameRoom.bases (h : FrameRoom cpu top) (hsp : d.get .sp = top) :
    Bases (refillArea cpu ∪ dorderWord) [(.sp, contextSize)] d := by
  intro b n hmem
  obtain ⟨rfl, rfl⟩ : b = .sp ∧ n = contextSize := by simpa using hmem
  rw [hsp]
  refine ⟨h.toRoom, fun x h0 h1 hx => ?_⟩
  have hstatic := h.static
  have hdevice := h.device
  rcases hx with ⟨h2, h3⟩ | ⟨h2, h3⟩
  · omega
  · omega

theorem FrameRoom.bases_static (h : FrameRoom cpu top) (hcpu : cpu < maxCpu) (hsp : d.get .sp = top)
    (ht1 : d.get .t1 = ptr) (hptr : ptr.toNat = staticArea cpu) :
    Bases (refillArea cpu ∪ dorderWord) [(.sp, contextSize), (.t1, 20)] d := by
  intro b n hmem
  rcases List.mem_cons.mp hmem with heq | hmem
  · exact h.bases hsp b n (heq ▸ List.mem_singleton_self _)
  · obtain ⟨rfl, rfl⟩ : b = .t1 ∧ n = 20 := by simpa using hmem
    rw [ht1]
    refine ⟨(direct_static hcpu hptr).toRoom, fun x h0 h1 hx => ?_⟩
    rw [maxCpu] at hcpu
    rcases hx with ⟨h2, h3⟩ | ⟨h2, h3⟩
    · omega
    · rw [deviceDorder_toNat] at h2
      rw [staticArea] at hptr
      omega

/-! ### The frame of an exception -/

/-- The frame at `top` holds the registers of `c`, but for the stack pointer and the scratch registers. -/
structure FrameHolds (c : CpuState) (mem : Memory) (top : Word) : Prop where
  reg : ∀ r, r ≠ .k0 → r ≠ .k1 → r ≠ .sp → frameWord mem top (.reg r) = c.get r
  lo : frameWord mem top .lo = c.core.lo
  hi : frameWord mem top .hi = c.core.hi
  epc : frameWord mem top .epc = c.exc .epc
  cause : frameWord mem top .cause = c.exc .cause
  badva : frameWord mem top .badva = c.exc .badvaddr
  entryhi : frameWord mem top .entryhi = c.core.cp0 .entryhi
  status : frameWord mem top .status = c.status

/-- The general registers and LO and HI, in the order in which they are stored. -/
def generalWords (m : Processor) : List (ContextField × Word) :=
  saveOrder.map (fun r => (.reg r, m.get r)) ++ [(.lo, m.lo), (.hi, m.hi)]

/-- The registers of the exception, in the order in which they are stored. -/
def exceptionWords (c : CpuState) : List (ContextField × Word) :=
  [(.epc, c.exc .epc), (.cause, c.exc .cause), (.badva, c.exc .badvaddr),
    (.entryhi, c.core.cp0 .entryhi), (.status, c.status)]

theorem frameWords_nodup (c : CpuState) :
    ((generalWords c.core ++ exceptionWords c).map Prod.fst).Nodup := by
  simp only [generalWords, exceptionWords, saveOrder, List.map_append, List.map_cons, List.map_nil]
  decide

theorem generalWords_congr {m m' : Processor} (hget : ∀ r, r ≠ .k0 → r ≠ .k1 → r ≠ .sp → m'.get r = m.get r)
    (hlo : m'.lo = m.lo) (hhi : m'.hi = m.hi) : generalWords m' = generalWords m := by
  have hregs : saveOrder.map (fun r => (ContextField.reg r, m'.get r)) =
      saveOrder.map fun r => (.reg r, m.get r) := by
    refine List.map_congr_left fun r hr => ?_
    have hne : r ≠ .k0 ∧ r ≠ .k1 ∧ r ≠ .sp := by
      refine ⟨?_, ?_, ?_⟩ <;>
      · rintro rfl
        simp [saveOrder] at hr
    rw [hget r hne.1 hne.2.1 hne.2.2]
  rw [generalWords, generalWords, hregs, hlo, hhi]

/-- A word that was stored in the frame. -/
theorem frameWord_stores (h : Room top contextSize) {ws : List (ContextField × Word)}
    (hnd : (ws.map Prod.fst).Nodup) {f : ContextField} {v : Word} (hf : (f, v) ∈ ws) (mem : Memory) :
    frameWord (stores regsOffset top.toNat ws mem) top f = v :=
  stores_word h.aligned regsOffset_aligned regsOffset_injective hnd hf mem

theorem frameHolds_stores (h : Room top contextSize) (c : CpuState) (mem : Memory) :
    FrameHolds c (stores regsOffset top.toNat (generalWords c.core ++ exceptionWords c) mem) top := by
  have hword := fun {f v} hf => frameWord_stores h (frameWords_nodup c) (f := f) (v := v) hf mem
  refine ⟨fun r h0 h1 h2 => hword ?_, hword ?_, hword ?_, hword ?_, hword ?_, hword ?_, hword ?_, hword ?_⟩
  · exact List.mem_append_left _ (List.mem_append_left _
      (List.mem_map.mpr ⟨r, mem_saveOrder h0 h1 h2, rfl⟩))
  all_goals simp [generalWords, exceptionWords]

/-- The frame is only read at its own bytes. -/
theorem frameWord_congr {mem mem' : Memory}
    (hm : ∀ x, top.toNat ≤ x → x < top.toNat + contextSize → mem' x = mem x) (f : ContextField) :
    frameWord mem' top f = frameWord mem top f := by
  have hf := regsOffset_le f
  rw [frameWord, frameWord, Memory.word_congr fun x _ _ => hm x (by omega) (by omega)]

theorem FrameHolds.congr {mem mem' : Memory} (h : FrameHolds c mem top)
    (hm : ∀ x, top.toNat ≤ x → x < top.toNat + contextSize → mem' x = mem x) : FrameHolds c mem' top := by
  have hword := frameWord_congr hm
  exact ⟨fun r h0 h1 h2 => (hword _).trans (h.reg r h0 h1 h2), (hword _).trans h.lo, (hword _).trans h.hi,
    (hword _).trans h.epc, (hword _).trans h.cause, (hword _).trans h.badva, (hword _).trans h.entryhi,
    (hword _).trans h.status⟩

/-! ### The parts that work on the frame -/

/-- The general registers and LO and HI are saved. -/
theorem run_save (h : Room top contextSize) (hsp : d.get .sp = top) :
    (run (saveRegisters .sp ++ saveLoHi) d).Yields fun d' =>
      (∀ r, r ≠ .t0 → r ≠ .t1 → d'.get r = d.get r) ∧ d'.lo = d.lo ∧ d'.hi = d.hi ∧ d'.cp0 = d.cp0 ∧
      d'.pc = d.pc ∧ d'.mem = stores regsOffset top.toNat (generalWords d) d.mem := by
  rw [run_append, saveRegisters, run_stores h hsp regsOffset_lt regsOffset_aligned .reg saveOrder,
    Outcome.ok_bind]
  simp +contextual [saveLoHi, run_cons, exec, address_field h, hsp, Outcome.Yields, generalWords,
    stores_append, Processor.get_set_of_ne, Processor.get_set_self, -Processor.get_set]
  rfl

/-- LO and HI and the general registers are loaded. -/
theorem run_load (h : Room top contextSize) (hsp : d.get .sp = top) :
    (run (loadLoHi ++ loadRegisters .sp) d).Yields fun d' =>
      (∀ r, r ≠ .k0 → r ≠ .k1 → r ≠ .sp → r ≠ .zero → d'.get r = frameWord d.mem top (.reg r)) ∧
      d'.get .sp = top ∧ d'.lo = frameWord d.mem top .lo ∧ d'.hi = frameWord d.mem top .hi ∧
      d'.cp0 = d.cp0 ∧ d'.mem = d.mem := by
  have hspecial : (run loadLoHi d).Yields fun m => (∀ r, r ≠ .t0 → r ≠ .t1 → m.get r = d.get r) ∧
      m.lo = frameWord d.mem top .lo ∧ m.hi = frameWord d.mem top .hi ∧ m.cp0 = d.cp0 ∧
      m.mem = d.mem := by
    simp +contextual [loadLoHi, run_cons, exec, address_field h, hsp, Outcome.Yields, frameWord,
      Processor.get_set_of_ne, Processor.get_set_self, -Processor.get_set]
  rw [run_append]
  refine hspecial.bind ?_
  rintro m ⟨hget, hlo, hhi, hcp0, hmem⟩
  have hsp' : m.get .sp = top := (hget .sp (by decide) (by decide)).trans hsp
  obtain ⟨d', hrun, hmem', hlo', hhi', hcp0', hin, hout⟩ := run_loads h hsp' regsOffset_lt
    regsOffset_aligned .reg loadOrder (by decide)
  refine ⟨d', hrun, fun r h0 h1 h2 hz => ?_, (hout .sp (by decide)).trans hsp', hlo'.trans hlo,
    hhi'.trans hhi, hcp0'.trans hcp0, hmem'.trans hmem⟩
  rw [hin r (mem_loadOrder h0 h1 h2) hz, hmem, frameWord]

/-- The call of compiled C code with the frame as its argument. -/
theorem callHandler_calm (hp : c.Protected) (link : Word) :
    Calm (callHandler link) c fun c' => SameBut [.a0, .ra, .sp] c c' ∧ c'.core.mem = c.core.mem ∧
      c'.get .a0 = c.get .sp ∧ c'.get .ra = link ∧
      c'.get .sp = c.get .sp - BitVec.ofNat 32 abiStackFrame := by
  refine calm_cons (not_mayMiss_of_none rfl) hp execInsn_or ?_
  let c₁ := c.set .a0 (c.get .zero ||| c.get .sp)
  have hsp : (c₁.set .ra link).get .sp = c.get .sp := by
    rw [CpuState.get_set_of_ne (by decide), CpuState.get_set_of_ne (by decide)]
  have hjal : execInsn (.jal link (.addiu .sp .sp (-BitVec.ofNat 32 abiStackFrame))) c₁ =
      .ok ((c₁.set .ra link).set .sp (c.get .sp - BitVec.ofNat 32 abiStackFrame)) := by
    rw [← hsp, BitVec.sub_eq_add_neg]
    rfl
  refine calm_cons (not_mayMiss_of_none rfl) (CpuState.set_protected.mpr hp) hjal
    (calm_nil ⟨?_, ?_, ?_, ?_, ?_⟩)
  · exact ((SameBut.refl.set (by simp)).set (by simp)).set (by simp)
  · simp only [CpuState.set_mem, c₁]
  · have hzero : c.get .zero = 0 := rfl
    rw [CpuState.get_set_of_ne (by decide), CpuState.get_set_of_ne (by decide),
      CpuState.get_set_self (by decide), hzero]
    simp
  · rw [CpuState.get_set_of_ne (by decide), CpuState.get_set_self (by decide)]
  · exact CpuState.get_set_self (by decide)

end Kalisto
