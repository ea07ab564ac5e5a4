import Kalisto.Exc.HandlerSteps

/-!
# The TLB refill exception

`handle_tlb_refill` of `head.S` from the exception to its `eret`.  The compiled C code that it calls is
`wrapped_tlb_refill` of `mm/tlb.c`, of which only what it leaves alone matters here.

* `refill_transparent` — the interrupted code does not notice the exception.
-/

namespace Kalisto

open Mips Mips.Exception

variable {cpu : ℕ} {c : CpuState} {top link : Word}

/-- What a call of `wrapped_tlb_refill` leaves: the stack pointer and the registers of the exception, by
the calling convention and since the function never writes them, and all memory but the stack. -/
structure RefillServed (cpu : ℕ) (c c' : CpuState) : Prop where
  sp : c'.get .sp = c.get .sp
  status : c'.status = c.status
  epc : c'.exc .epc = c.exc .epc
  asid : c'.asid = c.asid
  mem : ∀ x, ¬(staticArea cpu + 20 ≤ x ∧ x < (c.get .sp).toNat + abiStackFrame) →
    c'.core.mem x = c.core.mem x

/-- **A TLB refill exception**: what the hardware does, the handler up to the call, the call, and the
handler from there on.  The rules of `Exec` take care that a further miss would be fatal. -/
def RefillRun (cpu : ℕ) (link : Word) (c c' : CpuState) : Prop :=
  c.exl = false ∧ ∃ cause badvaddr entryhi c₁ c₂,
    entryhi.setWidth 8 = c.asid ∧
    Exec (fun _ _ => False) (refillEntry link) (c.raise cause badvaddr entryhi) c₁ ∧
    RefillServed cpu c₁ c₂ ∧ Exec (fun _ _ => False) refillExit c₂ c'

/-! ### Up to the call -/

/-- The frame of the refill handler is at the top of the static area. -/
theorem direct_refillFrame (h : cpu < maxCpu) (htop : top.toNat = staticArea cpu + 0x400 - contextSize) :
    Direct top contextSize := by
  have hsize : contextSize = 156 := by decide
  rw [maxCpu] at h
  rw [staticArea, hsize] at htop
  rw [hsize]
  exact ⟨⟨by omega, by omega⟩, by omega, by omega⟩

theorem refillSaveException_eq : refillSaveException = saveCp regsOffset .k0 .sp
    [(.exc .epc, .epc), (.exc .cause, .cause), (.exc .badvaddr, .badva), (.cp0 .entryhi, .entryhi),
      (.cp0 .status, .status)] := rfl

/-- The stack pointer is stored, and the frame becomes the stack. -/
theorem refillSwitchStack_calm (h : Direct top contextSize) (hk1 : c.get .k1 = top) (hp : c.Protected) :
    Calm refillSwitchStack c fun c' => SameBut [.sp] c c' ∧ c'.get .sp = top ∧
      c'.core.mem = c.core.mem.setWord (top.toNat + regsOffset (.reg .sp)) (c.get .sp).toNat := by
  refine calm_sw h hk1 hp (regsOffset_lt _) (regsOffset_aligned _) .sp ?_
  refine calm_cons (not_mayMiss_of_none rfl) hp execInsn_or (calm_nil ⟨?_, ?_, ?_⟩)
  · exact (SameBut.refl.setMem _).set (List.mem_singleton_self _)
  · rw [CpuState.get_set_self (by decide)]
    show 0 ||| c.get .k1 = top
    simp [hk1]
  · rfl

/-- The state in which `wrapped_tlb_refill` is called. -/
structure RefillEntered (cpu : ℕ) (c : CpuState) (top : Word) (c' : CpuState) : Prop where
  frame : FrameHolds c c'.core.mem top
  savedSp : frameWord c'.core.mem top (.reg .sp) = c.get .sp
  sp : c'.get .sp = top - BitVec.ofNat 32 abiStackFrame
  cp0 : c'.core.cp0 = c.core.cp0
  exc : c'.exc = c.exc
  mem : ∀ x, x ∉ refillArea cpu → c'.core.mem x = c.core.mem x

theorem refillEntry_calm (h : OnCpu cpu c.core) (hexl : c.exl = true) (link : Word) :
    Calm (refillEntry link) c fun c' => ∃ top : Word,
      top.toNat = staticArea cpu + 0x400 - contextSize ∧ RefillEntered cpu c top c' := by
  have hp : c.Protected := .inr hexl
  rw [refillEntry]
  refine (setupStaticArea_calm h hp (by decide) (by decide) (by decide)).append ?_
  rintro c₁ ⟨hsame₁, hmem₁, htop⟩
  generalize htop₁ : c₁.get .k1 = top at htop
  have hdirect := direct_refillFrame h.lt htop
  have hp₁ := hsame₁.protects hp
  refine (refillSwitchStack_calm hdirect htop₁ hp₁).append ?_
  rintro c₂ ⟨hsame₂, hsp₂, hmem₂⟩
  have hp₂ := hsame₂.protects hp₁
  have hsp₂' : c₂.core.get .sp = top := hsp₂
  rw [← List.append_assoc, ← plains_append]
  refine (calm_of_fits [(.sp, contextSize)] ?_ hp₂ (by decide) (run_save hdirect.toRoom hsp₂')).append ?_
  · intro b n hmem
    obtain ⟨rfl, rfl⟩ : b = .sp ∧ n = contextSize := by simpa using hmem
    rw [hsp₂']
    exact hdirect
  rintro c₃ ⟨⟨hget₃, hlo₃, hhi₃, hcp₃, hpc₃, hmem₃⟩, hexc₃, _⟩
  have hp₃ : c₃.Protected := by
    have hstatus : c₃.status = c₂.status := congrFun hcp₃ .status
    simpa [CpuState.Protected, CpuState.ie, CpuState.exl, hstatus] using hp₂
  have hsp₃ : c₃.get .sp = top := (hget₃ .sp (by decide) (by decide)).trans hsp₂
  rw [refillSaveException_eq]
  refine (saveCp_calm hdirect (by decide) (by decide) hsp₃ hp₃ regsOffset_lt regsOffset_aligned _).append ?_
  rintro c₄ ⟨hsame₄, _, hmem₄⟩
  refine (callHandler_calm (hsame₄.protects hp₃) link).mono ?_
  rintro c₅ ⟨hsame₅, hmem₅, _, _, hsp₅⟩
  refine ⟨top, htop, ?_⟩
  have hcp0 : c₃.core.cp0 = c.core.cp0 := hcp₃.trans (hsame₂.cp0.trans hsame₁.cp0)
  have hexc : c₃.exc = c.exc := hexc₃.trans (hsame₂.exc.trans hsame₁.exc)
  have hgeneral : generalWords c₂.core = generalWords c.core := by
    refine generalWords_congr (fun r h0 h1 h2 => ?_) (hsame₂.lo.trans hsame₁.lo) (hsame₂.hi.trans hsame₁.hi)
    exact (hsame₂.get r (by simpa using h2)).trans (hsame₁.get r (by simp [h0, h1]))
  have hexception : exceptionWords c₃ = exceptionWords c := by
    simp only [exceptionWords, CpuState.status, hexc, hcp0]
  have hmem : c₅.core.mem = stores regsOffset top.toNat (generalWords c.core ++ exceptionWords c)
      (c.core.mem.setWord (top.toNat + regsOffset (.reg .sp)) (c.get .sp).toNat) := by
    rw [stores_append, ← hgeneral, ← hexception, ← hsame₁.get .sp (by decide), ← hmem₁, ← hmem₂, ← hmem₃,
      hmem₅, hmem₄]
    rfl
  have hsp₄ : c₄.get .sp = top := (hsame₄.get .sp (by decide)).trans hsp₃
  refine ⟨?_, ?_, hsp₄ ▸ hsp₅, hsame₅.cp0.trans (hsame₄.cp0.trans hcp0),
    hsame₅.exc.trans (hsame₄.exc.trans hexc), fun x hx => ?_⟩
  · rw [hmem]
    exact frameHolds_stores hdirect.toRoom c _
  · rw [hmem, frameWord, stores_word_of_not_mem hdirect.aligned regsOffset_aligned regsOffset_injective,
      Memory.word_setWord_self]
    · apply BitVec.eq_of_toNat_eq
      simpa using (c.get .sp).isLt
    · simp only [generalWords, exceptionWords, saveOrder, List.map_append, List.map_cons, List.map_nil]
      decide
  · have hsize : contextSize = 156 := by decide
    have hfield := regsOffset_le (.reg .sp)
    rw [hsize] at hfield htop
    have hout : x < top.toNat ∨ top.toNat + 156 ≤ x := by
      by_contra hin
      exact hx ⟨by omega, by omega⟩
    rw [hmem, stores_outside (hsize ▸ regsOffset_le) hout]
    exact Memory.setWord_of_outside (by omega)

/-! ### From the call on -/

/-- What the handler leaves, from a frame at `top`. -/
structure RefillLeft (c : CpuState) (top : Word) (c' : CpuState) : Prop where
  reg : ∀ r, r ≠ .k0 → r ≠ .k1 → r ≠ .zero → c'.get r = frameWord c.core.mem top (.reg r)
  lo : c'.core.lo = frameWord c.core.mem top .lo
  hi : c'.core.hi = frameWord c.core.mem top .hi
  status : c'.status = c.status &&& ~~~2
  asid : c'.asid = c.asid
  pc : c'.core.pc = c.exc .epc
  mem : c'.core.mem = c.core.mem

theorem refillExit_calm (hdirect : Direct top contextSize) (hexl : c.exl = true)
    (hsp : c.get .sp = top - BitVec.ofNat 32 abiStackFrame) : Calm refillExit c (RefillLeft c top) := by
  have hp : c.Protected := .inr hexl
  rw [refillExit]
  have hrun : (run afterCall c.core).Yields (· = c.core.set .sp top) := by
    have hadd : c.core.get .sp + BitVec.ofNat 32 abiStackFrame = top := by
      show c.get .sp + _ = top
      rw [hsp, BitVec.sub_add_cancel]
    simp [afterCall, run_cons, exec, Outcome.Yields, hadd]
  refine (calm_of_fits [] (by simp) hp (by decide) hrun).append ?_
  rintro c₁ ⟨hcore₁, hexc₁, _⟩
  have hsp₁ : c₁.core.get .sp = top := by
    rw [hcore₁]
    exact Processor.get_set_self (by decide) _ _
  have hp₁ : c₁.Protected := by
    simpa [CpuState.Protected, CpuState.ie, CpuState.exl, CpuState.status, hcore₁] using hp
  rw [← List.append_assoc, ← plains_append]
  refine (calm_of_fits [(.sp, contextSize)] ?_ hp₁ (by decide) (run_load hdirect.toRoom hsp₁)).append ?_
  · intro b n hmem
    obtain ⟨rfl, rfl⟩ : b = .sp ∧ n = contextSize := by simpa using hmem
    rw [hsp₁]
    exact hdirect
  rintro c₂ ⟨⟨hget₂, hsp₂, hlo₂, hhi₂, hcp₂, hmem₂⟩, hexc₂, _⟩
  have hp₂ : c₂.Protected := by
    have hstatus : c₂.status = c₁.status := congrFun hcp₂ .status
    simpa [CpuState.Protected, CpuState.ie, CpuState.exl, hstatus] using hp₁
  refine calm_lw hdirect hsp₂ hp₂ (regsOffset_lt _) (regsOffset_aligned _) .sp ?_
  have hmem : c₂.core.mem = c.core.mem := by
    rw [hmem₂, hcore₁]
    rfl
  have hframe : ∀ f, frameWord c₁.core.mem top f = frameWord c.core.mem top f := fun f => by
    rw [← hmem₂, hmem]
  have hcp : c₂.core.cp0 = c.core.cp0 := by
    rw [hcp₂, hcore₁]
    rfl
  have hexc : c₂.exc = c.exc := hexc₂.trans hexc₁
  refine calm_cons (not_mayMiss_of_none rfl) hp₂ rfl (calm_nil ⟨fun r h0 h1 hz => ?_, hlo₂.trans (hframe _),
    hhi₂.trans (hframe _), ?_, ?_, ?_, hmem⟩)
  · rw [CpuState.get_leave]
    by_cases hr : r = .sp
    · rw [hr, CpuState.get_set_self (by decide), hmem, frameWord]
    · rw [CpuState.get_set_of_ne hr]
      exact (hget₂ r h0 h1 hr hz).trans (hframe _)
  · rw [CpuState.status_leave, CpuState.status, CpuState.status, CpuState.set_cp0, hcp]
  · rw [CpuState.asid_leave, CpuState.asid, CpuState.asid, CpuState.set_cp0, hcp]
  · rw [CpuState.pc_leave, CpuState.set_exc, hexc]

/-! ### The whole exception -/

theorem testBit_two : ∀ i < 32, (2 : Word).getLsbD i = decide (i = 1) := by decide

/-- The hardware sets EXL, and `eret` clears it. -/
theorem status_raise_leave {s : Word} (h : s.getLsbD 1 = false) : (s ||| 2) &&& ~~~2 = s := by
  apply BitVec.eq_of_getLsbD_eq
  intro i hi
  rw [BitVec.getLsbD_and, BitVec.getLsbD_or, BitVec.getLsbD_not, testBit_two i hi]
  by_cases h1 : i = 1
  · simpa [h1] using h.symm
  · simp [h1, hi]

theorem exl_raise (c : CpuState) (cause badvaddr entryhi : Word) :
    (c.raise cause badvaddr entryhi).exl = true := by
  simp [CpuState.exl, CpuState.status, CpuState.raise]

variable {c₁ c₂ c' : CpuState}

/-- The stack of the call begins at the frame. -/
theorem refillStack_toNat (htop : top.toNat = staticArea cpu + 0x400 - contextSize)
    (hsp : c.get .sp = top - BitVec.ofNat 32 abiStackFrame) :
    (c.get .sp).toNat + abiStackFrame = top.toNat := by
  have hsize : contextSize = 156 := by decide
  rw [staticArea, hsize] at htop
  have hle : (BitVec.ofNat 32 abiStackFrame).toNat ≤ top.toNat := by
    show 32 ≤ _
    omega
  rw [hsp, BitVec.toNat_sub_of_le hle]
  exact Nat.sub_add_cancel hle

theorem RefillServed.frame (h : RefillServed cpu c c')
    (htop : top.toNat = staticArea cpu + 0x400 - contextSize)
    (hsp : c.get .sp = top - BitVec.ofNat 32 abiStackFrame) {x : ℕ} (hx : top.toNat ≤ x) :
    c'.core.mem x = c.core.mem x := by
  have hstack := refillStack_toNat htop hsp
  exact h.mem x fun hin => by omega

/-- The handler ends where the exception came from. -/
theorem refillExit_agree {cause badvaddr entryhi : Word} (hcpu : OnCpu cpu c.core) (hexl : c.exl = false)
    (hasid : entryhi.setWidth 8 = c.asid) (htop : top.toNat = staticArea cpu + 0x400 - contextSize)
    (he : RefillEntered cpu (c.raise cause badvaddr entryhi) top c₁) (hs : RefillServed cpu c₁ c₂) :
    Calm refillExit c₂ fun c' => Agree (refillArea cpu) c'.core c.core := by
  have hdirect := direct_refillFrame hcpu.lt htop
  have hexl₂ : c₂.exl = true := by
    rw [CpuState.exl, hs.status, CpuState.status, he.cp0]
    exact exl_raise c cause badvaddr entryhi
  have hkept := fun x hx (_ : x < top.toNat + contextSize) => hs.frame htop he.sp (x := x) hx
  have hframe := he.frame.congr hkept
  refine (refillExit_calm hdirect hexl₂ (hs.sp.trans he.sp)).mono fun c' hl => ?_
  refine ⟨fun r h0 h1 => ?_, hl.lo.trans hframe.lo, hl.hi.trans hframe.hi, ?_, ?_, ?_, fun x hx => ?_⟩
  · by_cases hz : r = .zero
    · rw [hz, Processor.get_zero, Processor.get_zero]
    · by_cases hsp : r = .sp
      · rw [hsp]
        exact (hl.reg .sp (by decide) (by decide) (by decide)).trans
          ((frameWord_congr hkept _).trans he.savedSp)
      · exact (hl.reg r h0 h1 hz).trans (hframe.reg r h0 h1 hsp)
  · have hstatus : c₂.status = c.status ||| 2 := by
      rw [hs.status, CpuState.status, he.cp0]
      simp [CpuState.raise, CpuState.status]
    exact hl.status.trans (hstatus ▸ status_raise_leave hexl)
  · have hc₁ : c₁.asid = c.asid := by
      rw [CpuState.asid, he.cp0]
      simpa [CpuState.raise] using hasid
    exact hl.asid.trans (hs.asid.trans hc₁)
  · rw [hl.pc, hs.epc, he.exc]
    rfl
  · have hstack := refillStack_toNat htop he.sp
    rw [hl.mem, hs.mem x fun hin => hx ⟨hin.1, by omega⟩]
    exact he.mem x hx

theorem refillRun_agree (hcpu : OnCpu cpu c.core) (h : RefillRun cpu link c c') :
    Agree (refillArea cpu) c'.core c.core := by
  obtain ⟨hexl, cause, badvaddr, entryhi, c₁, c₂, hasid, hentry, hs, hexit⟩ := h
  have hr : OnCpu cpu (c.raise cause badvaddr entryhi).core := ⟨hcpu.lt, hcpu.dorder⟩
  obtain ⟨top, htop, he⟩ :=
    (refillEntry_calm hr (exl_raise c cause badvaddr entryhi) link).completes.2 c₁ hentry
  exact (refillExit_agree hcpu hexl hasid htop he hs).completes.2 c' hexit

/-- **The interrupted code does not notice a TLB refill**: the handler reaches the call, and if the call
returns, it reaches its end; then the processor is at the same instruction with the same registers, LO,
HI, Status, address space and memory, but for the scratch registers of the kernel and the temporary area
of the processor. -/
theorem handleTlbRefill_transparent (hcpu : OnCpu cpu c.core) (hexl : c.exl = false)
    (cause badvaddr : Word) {entryhi : Word} (hasid : entryhi.setWidth 8 = c.asid) (link : Word) :
    Completes (fun _ _ => False) (refillEntry link) (c.raise cause badvaddr entryhi) fun c₁ =>
      ∀ c₂, RefillServed cpu c₁ c₂ → Completes (fun _ _ => False) refillExit c₂ fun c' =>
        Agree (refillArea cpu) c'.core c.core := by
  have hr : OnCpu cpu (c.raise cause badvaddr entryhi).core := ⟨hcpu.lt, hcpu.dorder⟩
  refine (refillEntry_calm hr (exl_raise c cause badvaddr entryhi) link).completes.mono ?_
  rintro c₁ ⟨top, htop, he⟩ c₂ hs
  exact (refillExit_agree hcpu hexl hasid htop he hs).completes

/-- A processor in user mode, with a mapped stack. -/
def userCpu (number : Word) : CpuState where
  core :=
    { regs := fun r => if r = .sp then 0x7FFFE000 else if r = .v0 then number else 5,
      lo := 1, hi := 2, cp0 := fun _ => 0x11, pc := 0x00401000, mem := fun _ => 0 }
  exc := fun _ => 0

theorem userCpu_onCpu (number : Word) : OnCpu 0 (userCpu number).core := by
  refine ⟨by decide, ?_⟩
  unfold Memory.word
  rfl

/-- Compiled code can overwrite every register but the stack pointer. -/
def clobbered (c : CpuState) : CpuState :=
  { c with core := { c.core with regs := fun r => if r = .sp then c.core.regs .sp else 9, lo := 9, hi := 9 } }

/-- A push in user mode that misses, and a call that overwrites the registers. -/
theorem handleTlbRefill_transparent_user : ∃ c₁ c₂ c', Exec (fun _ _ => False) (refillEntry 0x80003000)
      ((userCpu 0).raise 8 0x7FFFDFFC 0x7FFFD011) c₁ ∧
    RefillServed 0 c₁ c₂ ∧ c₂.get .v0 = 9 ∧
    Exec (fun _ _ => False) refillExit c₂ c' ∧ Agree (refillArea 0) c'.core (userCpu 0).core := by
  have hasid : (0x7FFFD011 : Word).setWidth 8 = (userCpu 0).asid := by decide
  have h := handleTlbRefill_transparent (userCpu_onCpu 0) (by decide) 8 0x7FFFDFFC hasid 0x80003000
  obtain ⟨c₁, h₁⟩ := h.1
  have hserved : RefillServed 0 c₁ (clobbered c₁) := ⟨rfl, rfl, rfl, rfl, fun _ _ => rfl⟩
  have hexit := h.2 c₁ h₁ (clobbered c₁) hserved
  obtain ⟨c', h'⟩ := hexit.1
  exact ⟨c₁, clobbered c₁, c', h₁, hserved, rfl, h', hexit.2 c' h'⟩

end Kalisto
