import Kalisto.Exc.Refill

/-!
# The general exception

`handle_general` of `head.S` up to the call of compiled C code and from there on.  The frame lies on the
stack of the interrupted thread, which can be mapped, so that the TLB refill handler can run in between.

* `generalEntry_completes` — the frame that the handler makes;
* `generalExit_completes` — what the handler takes from the frame, on any processor;
* `handleGeneral_completes` — both halves together.
-/

namespace Kalisto

open Mips Mips.Exception

variable {cpu : ℕ} {c : CpuState} {top ptr link : Word}

theorem refillRun_transparent {m : Processor} (h : OnCpu cpu m) (link : Word) :
    Transparent (refillArea cpu) dorderWord m.mem (RefillRun cpu link) :=
  fun _ _ hdev hrun => refillRun_agree (h.of_eqOn hdev) hrun

theorem Completes.of_append_plains {refill : CpuState → CpuState → Prop} {is js : List Instr} {ks : List Insn}
    {Q : CpuState → Prop} (h : Completes refill (plains (is ++ js) ++ ks) c Q) :
    Completes refill (plains is ++ (plains js ++ ks)) c Q := by
  rwa [plains_append, List.append_assoc] at h

/-! ### Up to the call -/

/-- The words that the handler keeps in the static area. -/
def staticWords (c : CpuState) : List (StaticField × Word) :=
  [(.epc, c.exc .epc), (.cause, c.exc .cause), (.badva, c.exc .badvaddr),
    (.entryhi, c.core.cp0 .entryhi), (.status, c.status)]

theorem generalSaveException_eq : generalSaveException = saveCp staticOffset .k0 .k1
    [(.exc .epc, .epc), (.exc .cause, .cause), (.exc .badvaddr, .badva), (.cp0 .entryhi, .entryhi),
      (.cp0 .status, .status)] := rfl

theorem generalMoveException_eq : generalMoveException = copies staticOffset .t1 regsOffset .sp .t0
    [(.epc, .epc), (.cause, .cause), (.badva, .badva), (.entryhi, .entryhi), (.status, .status)] := rfl

/-- The exception level is left. -/
theorem generalLeaveLevel_calm (hk0 : c.get .k0 = c.status) (hp : c.Protected) :
    Calm generalLeaveLevel c fun c' => ∃ c₁, SameBut [.k0, .k1] c c₁ ∧ c₁.core.mem = c.core.mem ∧
      c' = { c₁ with core := c₁.core.setCp0 .status (c.status &&& kernelMode) } := by
  let c₁ := c.set .k1 kernelMode
  let c₂ := c₁.set .k0 (c.status &&& kernelMode)
  have hand : execInsn (.plain (.and .k0 .k1)) c₁ = .ok c₂ := by
    have h0 : c₁.core.get .k0 = c.status := (Processor.get_set_of_ne (by decide) _ _).trans hk0
    have h1 : c₁.core.get .k1 = kernelMode := Processor.get_set_self (by decide) _ _
    simp only [execInsn, exec, Outcome.ok_bind, Outcome.pure_eq, h0, h1]
    rfl
  have hmtc : execInsn (.plain (.mtc0 .k0 .status)) c₂ =
      .ok { c₂ with core := c₂.core.setCp0 .status (c.status &&& kernelMode) } := by
    have h0 : c₂.core.get .k0 = c.status &&& kernelMode := Processor.get_set_self (by decide) _ _
    simp only [execInsn, exec, Outcome.ok_bind, Outcome.pure_eq, h0]
  refine calm_cons (not_mayMiss_of_none rfl) hp execInsn_la ?_
  refine calm_cons (not_mayMiss_of_none rfl) (CpuState.set_protected.mpr hp) hand ?_
  refine calm_cons (not_mayMiss_of_none rfl) (CpuState.set_protected.mpr (CpuState.set_protected.mpr hp)) hmtc
    (calm_nil ⟨c₂, ?_, rfl, rfl⟩)
  exact (SameBut.refl.set (by simp)).set (by simp)

/-- Interrupts are disabled in the mode in which the handler goes on. -/
theorem kernelMode_ie (s : Word) : (s &&& kernelMode).getLsbD 0 = false := by
  have h : kernelMode.getLsbD 0 = false := by decide
  rw [BitVec.getLsbD_and, h, Bool.and_false]

theorem kernelMode_exl (s : Word) : (s &&& kernelMode).getLsbD 1 = false := by
  have h : kernelMode.getLsbD 1 = false := by decide
  rw [BitVec.getLsbD_and, h, Bool.and_false]

/-- The processor when the exception level has been left, as if no exception came from there on. -/
def leftLevel (c : CpuState) (ptr : Word) : Processor :=
  (c.core.setCp0 .status (c.status &&& kernelMode)).setMem
    (stores staticOffset ptr.toNat (staticWords c) c.core.mem)

theorem leftLevel_status : (leftLevel c ptr).cp0 .status = c.status &&& kernelMode :=
  Function.update_self Cp0.status _ c.core.cp0

theorem leftLevel_entryhi : (leftLevel c ptr).cp0 .entryhi = c.core.cp0 .entryhi := by
  rw [leftLevel, Processor.setMem_cp0, Processor.setCp0_cp0, Function.update_of_ne (by decide)]

/-- A word of the exception in the static area. -/
theorem staticWord_leftLevel (hcpu : cpu < maxCpu) (hptr : ptr.toNat = staticArea cpu) {f : StaticField}
    {v : Word} (hf : (f, v) ∈ staticWords c) :
    BitVec.ofNat 32 ((leftLevel c ptr).mem.word (ptr.toNat + staticOffset f)) = v := by
  have hnd : ((staticWords c).map Prod.fst).Nodup := by
    simp only [staticWords, List.map_cons, List.map_nil]
    decide
  exact stores_word (direct_static hcpu hptr).aligned staticOffset_aligned staticOffset_injective hnd hf _

/-- The registers of the exception are kept in the static area, and the exception level is left. -/
theorem generalLevel_calm (h : OnCpu cpu c.core) (hexl : c.exl = true) :
    Calm (setupStaticArea .k0 .k1 .k1 kernelStaticSize ++ (generalSaveException ++ generalLeaveLevel)) c
      fun c' => ∃ ptr : Word, ptr.toNat = staticArea cpu ∧
        Follows (refillArea cpu) dorderWord c.core.mem (leftLevel c ptr) c' := by
  have hp : c.Protected := .inr hexl
  refine (setupStaticArea_calm h hp (by decide) (by decide) (by decide)).append ?_
  rintro c₁ ⟨hsame₁, hmem₁, hptr⟩
  generalize hk1 : c₁.get .k1 = ptr at hptr
  have hp₁ := hsame₁.protects hp
  have hptr' : ptr.toNat = staticArea cpu := hptr.trans (by rw [kernelStaticSize, Nat.add_sub_cancel])
  have hdirect := direct_static h.lt hptr'
  rw [generalSaveException_eq]
  have hlt : ∀ f, staticOffset f < 20 := fun f => by
    have := staticOffset_lt f
    omega
  refine (saveCp_calm hdirect (by decide) (by decide) hk1 hp₁ hlt staticOffset_aligned _).append ?_
  rintro c₂ ⟨hsame₂, hk0, hmem₂⟩
  have hk0' : c₂.get .k0 = c₂.status := by
    rw [hk0, hsame₂.status]
    rfl
  refine (generalLeaveLevel_calm hk0' (hsame₂.protects hp₁)).mono ?_
  rintro c₄ ⟨c₃, hsame₃, hmem₃, rfl⟩
  have hget : ∀ r, r ≠ .k0 → r ≠ .k1 → c₃.get r = c.get r := fun r h0 h1 =>
    (hsame₃.get r (by simp [h0, h1])).trans
      ((hsame₂.get r (by simp [h0])).trans (hsame₁.get r (by simp [h0, h1])))
  have hcp0 : c₃.core.cp0 = c.core.cp0 := hsame₃.cp0.trans (hsame₂.cp0.trans hsame₁.cp0)
  have hstatus : c₂.status = c.status := hsame₂.status.trans hsame₁.status
  have hwords : (staticWords c) = [(CpReg.exc .epc, StaticField.epc), (.exc .cause, .cause),
      (.exc .badvaddr, .badva), (.cp0 .entryhi, .entryhi), (.cp0 .status, .status)].map
        fun f => (f.2, c₁.cp f.1) := by
    simp only [staticWords, List.map_cons, List.map_nil, CpuState.cp, hsame₁.exc, hsame₁.cp0]
    rfl
  have hmem : c₃.core.mem = stores staticOffset ptr.toNat (staticWords c) c.core.mem := by
    rw [hmem₃, hmem₂, hmem₁, hwords]
  have hstatus₄ :
      (c₃.core.setCp0 .status (c₂.status &&& kernelMode)).cp0 .status = c.status &&& kernelMode := by
    rw [hstatus, Processor.setCp0_cp0, Function.update_self]
  have hentryhi₄ :
      (c₃.core.setCp0 .status (c₂.status &&& kernelMode)).cp0 .entryhi = c.core.cp0 .entryhi := by
    rw [Processor.setCp0_cp0, Function.update_of_ne (by decide), hcp0]
  refine ⟨ptr, hptr', ⟨hget, ?_, ?_, ?_, ?_, ?_, fun x _ => congrFun hmem x⟩, ?_, ⟨?_, ?_⟩⟩
  · exact hsame₃.lo.trans (hsame₂.lo.trans hsame₁.lo)
  · exact hsame₃.hi.trans (hsame₂.hi.trans hsame₁.hi)
  · rw [leftLevel_status, hstatus₄]
  · rw [leftLevel_entryhi, hentryhi₄]
  · exact hsame₃.pc.trans (hsame₂.pc.trans hsame₁.pc)
  · intro x hx
    have hcpu := h.lt
    have hdev := hx.1
    rw [deviceDorder_toNat] at hdev
    rw [maxCpu] at hcpu
    rw [staticArea] at hptr'
    exact stores_outside staticOffset_lt (.inr (by omega)) _ _
  · rw [CpuState.ie, CpuState.status, hstatus₄, kernelMode_ie]
  · rw [CpuState.exl, CpuState.status, hstatus₄, kernelMode_exl]

/-- The state in which `wrapped_general` is called. -/
structure GeneralEntered (cpu : ℕ) (c : CpuState) (top : Word) (c' : CpuState) : Prop where
  frame : FrameHolds c c'.core.mem top
  a0 : c'.get .a0 = top
  sp : c'.get .sp = top - BitVec.ofNat 32 abiStackFrame
  status : c'.status = c.status &&& kernelMode
  asid : c'.asid = c.asid
  mem : ∀ x, (x < staticArea cpu ∨ staticArea cpu + 0x400 ≤ x) →
    (x < top.toNat ∨ top.toNat + contextSize ≤ x) → c'.core.mem x = c.core.mem x

theorem GeneralEntered.masked {c' : CpuState} (h : GeneralEntered cpu c top c') : Masked c' :=
  ⟨by rw [CpuState.ie, h.status, kernelMode_ie], by rw [CpuState.exl, h.status, kernelMode_exl]⟩

/-- **The first half of `handle_general`** makes a frame on the stack, however often the stack misses in
the TLB. -/
theorem generalEntry_completes (h : OnCpu cpu c.core) (hexl : c.exl = true)
    (hsp : c.get .sp = top + BitVec.ofNat 32 contextSize) (hroom : FrameRoom cpu top) (link link' : Word) :
    Completes (RefillRun cpu link') (generalEntry link) c (GeneralEntered cpu c top) := by
  have hrefill := refillRun_transparent h link'
  have hdis := refillArea_disjoint h.lt
  rw [generalEntry, ← List.append_assoc, ← List.append_assoc, List.append_assoc (setupStaticArea _ _ _ _)]
  refine (generalLevel_calm h hexl).completes.append ?_
  rintro c₁ ⟨ptr, hptr, hf₁⟩
  -- the frame is allocated, and the registers are saved
  have halloc : (run generalAllocate (leftLevel c ptr)).Yields (· = (leftLevel c ptr).set .sp top) := by
    have hadd : (leftLevel c ptr).get .sp + -BitVec.ofNat 32 contextSize = top := by
      show c.get .sp + _ = top
      rw [hsp, BitVec.add_assoc, BitVec.add_right_neg, BitVec.add_zero]
    simp [generalAllocate, run_cons, exec, Outcome.Yields, hadd]
  refine (completes_of_fits [] hrefill hdis (by decide) (by simp [Bases]) hf₁ halloc).append ?_
  rintro c₂ ⟨d₂, hd₂, hf₂⟩
  have hsp₂ : d₂.get .sp = top := by
    rw [hd₂]
    exact Processor.get_set_self (by decide) _ _
  refine Completes.of_append_plains ?_
  refine (completes_of_fits [(.sp, contextSize)] hrefill hdis (by decide) (hroom.bases hsp₂) hf₂
    (run_save hroom.toRoom hsp₂)).append ?_
  rintro c₃ ⟨d₃, ⟨hget₃, hlo₃, hhi₃, hcp₃, hpc₃, hmem₃⟩, hf₃⟩
  -- the address of the static area is computed again, and the registers of the exception are moved
  have hcpu₃ : OnCpu cpu c₃.core := h.of_eqOn fun x hx =>
    (hf₃.agree.mem x (hdis.notMem_of_mem_right hx)).trans (hf₃.devices hx)
  refine (setupStaticArea_calm hcpu₃ (.inl hf₃.masked.ie) (by decide) (by decide)
    (by decide)).completes.append ?_
  rintro c₄ ⟨hsame₄, hmem₄, hptr₄⟩
  have hptr₄' : c₄.get .t1 = ptr := by
    apply BitVec.eq_of_toNat_eq
    rw [hptr₄, hptr, kernelStaticSize, Nat.add_sub_cancel]
  have hf₄ := hf₃.set hsame₄ hmem₄ (by decide) hptr₄'
  have hsp₄ : (d₃.set .t1 ptr).get .sp = top := by
    rw [Processor.get_set_of_ne (by decide), hget₃ .sp (by decide) (by decide), hsp₂]
  have ht1₄ : (d₃.set .t1 ptr).get .t1 = ptr := Processor.get_set_self (by decide) _ _
  have hsize : contextSize = 156 := by decide
  have hstatic := hroom.static
  have hrun := run_copies (m := d₃.set .t1 ptr) .t0 (direct_static h.lt hptr).toRoom hroom.toRoom (by omega)
    (by decide) (by decide) (by decide) ht1₄ hsp₄ staticOffset_lt staticOffset_aligned
    regsOffset_le regsOffset_aligned
    [(.epc, .epc), (.cause, .cause), (.badva, .badva), (.entryhi, .entryhi), (.status, .status)]
  rw [generalMoveException_eq]
  refine (completes_of_fits [(.sp, contextSize), (.t1, 20)] hrefill hdis (by decide)
    (hroom.bases_static h.lt hsp₄ ht1₄ hptr) hf₄ hrun).append ?_
  rintro c₅ ⟨d₅, ⟨hget₅, _, _, hcp₅, _, hmem₅⟩, hf₅⟩
  have hsp₅ : c₅.get .sp = top :=
    (hf₅.agree.get .sp (by decide) (by decide)).trans ((hget₅ .sp (by decide)).trans hsp₄)
  refine (callHandler_calm (.inl hf₅.masked.ie) link).completes.mono ?_
  rintro c₆ ⟨hsame₆, hmem₆, ha₆, _, hs₆⟩
  -- what the frame holds
  have hmem₂ : d₂.mem = (leftLevel c ptr).mem := by rw [hd₂]; rfl
  have hgeneral : generalWords d₂ = generalWords c.core := by
    rw [hd₂]
    exact generalWords_congr (fun r _ _ h2 => Processor.get_set_of_ne h2 _ _) rfl rfl
  have hword : ∀ f v, (f, v) ∈ staticWords c →
      BitVec.ofNat 32 ((d₃.set .t1 ptr).mem.word (ptr.toNat + staticOffset f)) = v := by
    intro f v hf
    have hoff := staticOffset_lt f
    have hkept : (d₃.set .t1 ptr).mem.word (ptr.toNat + staticOffset f) =
        (leftLevel c ptr).mem.word (ptr.toNat + staticOffset f) := by
      refine Memory.word_congr fun x h0 h1 => ?_
      show d₃.mem x = _
      rw [hmem₃, hmem₂]
      exact stores_outside regsOffset_le (by omega) _ _
    rw [hkept, staticWord_leftLevel h.lt hptr hf]
  have hmem : d₅.mem =
      stores regsOffset top.toNat (generalWords c.core ++ exceptionWords c) (leftLevel c ptr).mem := by
    rw [hmem₅, List.map_cons, List.map_cons, List.map_cons, List.map_cons, List.map_cons, List.map_nil,
      hword .epc (c.exc .epc) (by simp [staticWords]), hword .cause (c.exc .cause) (by simp [staticWords]),
      hword .badva (c.exc .badvaddr) (by simp [staticWords]),
      hword .entryhi (c.core.cp0 .entryhi) (by simp [staticWords]),
      hword .status c.status (by simp [staticWords]), stores_append, ← hgeneral, ← hmem₂, ← hmem₃]
    rfl
  have hkept : ∀ x, x ∉ refillArea cpu → c₆.core.mem x = d₅.mem x := fun x hx => by
    rw [hmem₆, hf₅.agree.mem x hx]
  have hcp : d₅.cp0 = (leftLevel c ptr).cp0 := by
    rw [hcp₅]
    show d₃.cp0 = _
    rw [hcp₃, hd₂]
    rfl
  refine ⟨?_, ha₆.trans hsp₅, hsp₅ ▸ hs₆, ?_, ?_, fun x hx hx' => ?_⟩
  · refine (frameHolds_stores hroom.toRoom c (leftLevel c ptr).mem).congr fun x h0 h1 => ?_
    rw [hkept x fun hx => by have := hx.1; have := hx.2; omega, hmem]
  · rw [hsame₆.status, CpuState.status, hf₅.agree.status, hcp, leftLevel_status]
  · have hasid := hf₅.agree.asid
    rw [hcp, leftLevel_entryhi, ← hsame₆.cp0] at hasid
    exact hasid
  · have hcpu := h.lt
    rw [maxCpu] at hcpu
    rw [hkept x fun hx => by have := hx.1; have := hx.2; omega, hmem, stores_outside regsOffset_le hx']
    exact stores_outside staticOffset_lt (by omega) _ _

/-! ### From the call on -/

theorem generalMoveBack_eq : generalMoveBack = copies regsOffset .sp staticOffset .t1 .t0
    [(.status, .status), (.epc, .epc)] := rfl

/-- A word of the static area. -/
def staticWord (mem : Memory) (ptr : Word) (f : StaticField) : Word :=
  BitVec.ofNat 32 (mem.word (ptr.toNat + staticOffset f))

/-- What the end of the handler leaves, from the words of the static area. -/
structure GeneralEnded (c : CpuState) (ptr : Word) (c' : CpuState) : Prop where
  get : ∀ r, r ≠ .k0 → c'.get r = c.get r
  lo : c'.core.lo = c.core.lo
  hi : c'.core.hi = c.core.hi
  status : c'.status = staticWord c.core.mem ptr .status &&& ~~~2
  asid : c'.asid = c.asid
  pc : c'.core.pc = staticWord c.core.mem ptr .epc
  mem : c'.core.mem = c.core.mem

/-- The end of the handler.  Status is written with EXL set, so that no interrupt comes before `eret`. -/
theorem generalLeave_calm (h : Direct ptr 20) (hk1 : c.get .k1 = ptr) (hp : c.Protected)
    (hexl : (staticWord c.core.mem ptr .status).getLsbD 1 = true) :
    Calm generalLeave c (GeneralEnded c ptr) := by
  let c₁ := c.set .k0 (staticWord c.core.mem ptr .epc)
  let c₂ := c₁.setExc .epc (staticWord c.core.mem ptr .epc)
  let c₃ := c₂.set .k0 (staticWord c.core.mem ptr .status)
  let c₄ : CpuState := { c₃ with core := c₃.core.setCp0 .status (staticWord c.core.mem ptr .status) }
  have hk1₂ : c₂.get .k1 = ptr := (CpuState.get_set_of_ne (by decide)).trans hk1
  have hmtc : execInsn (.mtc0 .k0 .epc) c₁ = .ok c₂ := by
    have h0 : c₁.get .k0 = staticWord c.core.mem ptr .epc := CpuState.get_set_self (by decide)
    rw [execInsn, h0]
  have hmtc' : execInsn (.plain (.mtc0 .k0 .status)) c₃ = .ok c₄ := by
    have h0 : c₃.core.get .k0 = staticWord c.core.mem ptr .status := CpuState.get_set_self (by decide)
    simp only [execInsn, exec, Outcome.ok_bind, Outcome.pure_eq, h0]
    rfl
  have hp₁ : c₁.Protected := CpuState.set_protected.mpr hp
  have hp₂ : c₂.Protected := hp₁
  have hstatus₄ : c₄.status = staticWord c.core.mem ptr .status :=
    Function.update_self Cp0.status _ c₃.core.cp0
  have hentryhi₄ : c₄.core.cp0 .entryhi = c.core.cp0 .entryhi := by
    show Function.update c.core.cp0 Cp0.status (staticWord c.core.mem ptr .status) .entryhi = _
    rw [Function.update_of_ne (by decide)]
  have hepc₄ : c₄.exc .epc = staticWord c.core.mem ptr .epc := by
    show Function.update c.exc ExcReg.epc (staticWord c.core.mem ptr .epc) .epc = _
    rw [Function.update_self]
  refine calm_lw h hk1 hp (o := staticOffset .epc) (by decide) (by decide) .k0 ?_
  refine calm_cons (not_mayMiss_of_none rfl) hp₁ hmtc ?_
  refine calm_lw h hk1₂ hp₂ (o := staticOffset .status) (by decide) (by decide) .k0 ?_
  refine calm_cons (not_mayMiss_of_none rfl) (CpuState.set_protected.mpr hp₂) hmtc' ?_
  refine calm_cons (not_mayMiss_of_none rfl) (.inr (by rw [CpuState.exl, hstatus₄, hexl])) rfl (calm_nil ?_)
  refine ⟨fun r h0 => ?_, rfl, rfl, ?_, ?_, ?_, rfl⟩
  · rw [CpuState.get_leave]
    exact (CpuState.get_set_of_ne h0).trans (CpuState.get_set_of_ne h0)
  · rw [CpuState.status_leave, hstatus₄]
  · rw [CpuState.asid_leave, CpuState.asid, hentryhi₄, CpuState.asid]
  · rw [CpuState.pc_leave, hepc₄]

/-- What the handler leaves, from a frame at `top`. -/
structure GeneralLeft (cpu : ℕ) (c : CpuState) (top : Word) (c' : CpuState) : Prop where
  reg : ∀ r, r ≠ .k0 → r ≠ .k1 → r ≠ .sp → r ≠ .zero → c'.get r = frameWord c.core.mem top (.reg r)
  sp : c'.get .sp = top + BitVec.ofNat 32 contextSize
  lo : c'.core.lo = frameWord c.core.mem top .lo
  hi : c'.core.hi = frameWord c.core.mem top .hi
  status : c'.status = frameWord c.core.mem top .status &&& ~~~2
  asid : c'.asid = c.asid
  pc : c'.core.pc = frameWord c.core.mem top .epc
  mem : ∀ x, (x < staticArea cpu ∨ staticArea cpu + 0x400 ≤ x) → c'.core.mem x = c.core.mem x

/-- **The second half of `handle_general`** continues the thread whose frame is on the stack, with
interrupts disabled by the caller and EXL set in the Status of the frame. -/
theorem generalExit_completes (h : OnCpu cpu c.core) (hmasked : Masked c)
    (hsp : c.get .sp = top - BitVec.ofNat 32 abiStackFrame) (hroom : FrameRoom cpu top)
    (hexl : (frameWord c.core.mem top .status).getLsbD 1 = true) (link' : Word) :
    Completes (RefillRun cpu link') generalExit c (GeneralLeft cpu c top) := by
  have hrefill := refillRun_transparent h link'
  have hdis := refillArea_disjoint h.lt
  have hf₀ : Follows (refillArea cpu) dorderWord c.core.mem c.core c :=
    ⟨Agree.refl _, Set.eqOn_refl _ _, hmasked⟩
  have hafter : (run afterCall c.core).Yields (· = c.core.set .sp top) := by
    have hadd : c.core.get .sp + BitVec.ofNat 32 abiStackFrame = top := by
      show c.get .sp + _ = top
      rw [hsp, BitVec.sub_add_cancel]
    simp [afterCall, run_cons, exec, Outcome.Yields, hadd]
  rw [generalExit]
  refine (completes_of_fits [] hrefill hdis (by decide) (by simp [Bases]) hf₀ hafter).append ?_
  rintro c₁ ⟨d₁, hd₁, hf₁⟩
  have hcpu₁ : OnCpu cpu c₁.core := h.of_eqOn fun x hx =>
    (hf₁.agree.mem x (hdis.notMem_of_mem_right hx)).trans (hf₁.devices hx)
  refine (setupStaticArea_calm hcpu₁ (.inl hf₁.masked.ie) (by decide) (by decide)
    (by decide)).completes.append ?_
  rintro c₂ ⟨hsame₂, hmem₂, hptr₂⟩
  generalize ht1₂ : c₂.get .t1 = ptr at hptr₂
  have hf₂ := hf₁.set hsame₂ hmem₂ (by decide) ht1₂
  have hptr : ptr.toNat = staticArea cpu := hptr₂.trans (by rw [kernelStaticSize, Nat.add_sub_cancel])
  -- Status and EPC are moved back, and the other registers are loaded
  have hsp₂ : (d₁.set .t1 ptr).get .sp = top := by
    rw [Processor.get_set_of_ne (by decide), hd₁]
    exact Processor.get_set_self (by decide) _ _
  have ht1 : (d₁.set .t1 ptr).get .t1 = ptr := Processor.get_set_self (by decide) _ _
  have hsize : contextSize = 156 := by decide
  have hstatic := hroom.static
  have hback := run_copies (m := d₁.set .t1 ptr) .t0 hroom.toRoom (direct_static h.lt hptr).toRoom (by omega)
    (by decide) (by decide) (by decide) hsp₂ ht1 regsOffset_le regsOffset_aligned
    staticOffset_lt staticOffset_aligned [(.status, .status), (.epc, .epc)]
  rw [generalMoveBack_eq]
  refine (completes_of_fits [(.sp, contextSize), (.t1, 20)] hrefill hdis (by decide)
    (hroom.bases_static h.lt hsp₂ ht1 hptr) hf₂ hback).append ?_
  rintro c₃ ⟨d₃, ⟨hget₃, _, _, hcp₃, _, hmem₃⟩, hf₃⟩
  have hsp₃ : d₃.get .sp = top := (hget₃ .sp (by decide)).trans hsp₂
  refine Completes.of_append_plains ?_
  refine (completes_of_fits [(.sp, contextSize)] hrefill hdis (by decide) (hroom.bases hsp₃) hf₃
    (run_load hroom.toRoom hsp₃)).append ?_
  rintro c₄ ⟨d₄, ⟨hget₄, hsp₄, hlo₄, hhi₄, hcp₄, hmem₄⟩, hf₄⟩
  have hrelease : (run generalRelease d₄).Yields (· = d₄.set .sp (top + BitVec.ofNat 32 contextSize)) := by
    simp [generalRelease, run_cons, exec, Outcome.Yields, hsp₄]
  refine (completes_of_fits [] hrefill hdis (by decide) (by simp [Bases]) hf₄ hrelease).append ?_
  rintro c₅ ⟨d₅, hd₅, hf₅⟩
  -- the exception is left
  have hcpu₅ : OnCpu cpu c₅.core := h.of_eqOn fun x hx =>
    (hf₅.agree.mem x (hdis.notMem_of_mem_right hx)).trans (hf₅.devices hx)
  have hp₅ : c₅.Protected := .inl hf₅.masked.ie
  refine (setupStaticArea_calm hcpu₅ hp₅ (by decide) (by decide) (by decide)).completes.append ?_
  rintro c₆ ⟨hsame₆, hmem₆, hptr₆⟩
  have hk1₆ : c₆.get .k1 = ptr := by
    apply BitVec.eq_of_toNat_eq
    rw [hptr₆, hptr, kernelStaticSize, Nat.add_sub_cancel]
  have hmem₅ : d₅.mem = d₃.mem := by
    rw [hd₅, ← hmem₄]
    rfl
  have hmem₁ : d₁.mem = c.core.mem := by rw [hd₁]; rfl
  have hframe : ∀ f, frameWord d₃.mem top f = frameWord c.core.mem top f := by
    refine frameWord_congr fun x h0 h1 => ?_
    rw [hmem₃]
    exact (stores_outside staticOffset_lt (by omega) _ _).trans (congrFun hmem₁ x)
  have hkept : ∀ x, x ∉ refillArea cpu → c₆.core.mem x = d₃.mem x := fun x hx => by
    rw [hmem₆, hf₅.agree.mem x hx, hmem₅]
  have hback : ∀ f g, (g, f) ∈ [(StaticField.status, ContextField.status), (.epc, .epc)] →
      staticWord c₆.core.mem ptr g = frameWord c.core.mem top f := by
    intro f g hfg
    have hoff := staticOffset_lt g
    have hword : c₆.core.mem.word (ptr.toNat + staticOffset g) = d₃.mem.word (ptr.toNat + staticOffset g) :=
      Memory.word_congr fun x h0 h1 => hkept x fun hx => by have := hx.1; omega
    rw [staticWord, hword, hmem₃]
    refine stores_word (direct_static h.lt hptr).aligned staticOffset_aligned staticOffset_injective ?_ ?_ _
    · simp only [List.map_cons, List.map_nil]
      decide
    · rcases List.mem_cons.mp hfg with heq | hfg
      · cases heq
        simp [frameWord, hmem₁]
      · cases List.mem_singleton.mp hfg
        simp [frameWord, hmem₁]
  have hstatus := hback .status .status (by simp)
  have hepc := hback .epc .epc (by simp)
  refine (generalLeave_calm (direct_static h.lt hptr) hk1₆ (hsame₆.protects hp₅)
    (hstatus ▸ hexl)).completes.mono fun c' he => ?_
  refine ⟨fun r h0 h1 h2 hz => ?_, ?_, ?_, ?_, ?_, ?_, ?_, fun x hx => ?_⟩
  · rw [he.get r h0, hsame₆.get r (by simp [h0, h1]), ← hframe, ← hget₄ r h0 h1 h2 hz]
    refine (hf₅.agree.get r h0 h1).trans ?_
    rw [hd₅, Processor.get_set_of_ne h2]
  · rw [he.get .sp (by decide), hsame₆.get .sp (by decide)]
    refine (hf₅.agree.get .sp (by decide) (by decide)).trans ?_
    rw [hd₅]
    exact Processor.get_set_self (by decide) _ _
  · rw [he.lo, hsame₆.lo, hf₅.agree.lo, ← hframe, ← hlo₄, hd₅]
    rfl
  · rw [he.hi, hsame₆.hi, hf₅.agree.hi, ← hframe, ← hhi₄, hd₅]
    rfl
  · rw [he.status, hstatus]
  · have hcp : d₅.cp0 = c.core.cp0 := by
      rw [hd₅]
      show d₄.cp0 = _
      rw [hcp₄, hcp₃, hd₁]
      rfl
    rw [he.asid, CpuState.asid, hsame₆.cp0, hf₅.agree.asid, hcp, CpuState.asid]
  · rw [he.pc, hepc]
  · have hcpu := h.lt
    rw [maxCpu] at hcpu
    rw [he.mem, hkept x fun hin => by have := hin.1; have := hin.2; omega, hmem₃,
      stores_outside staticOffset_lt (by omega)]
    exact congrFun hmem₁ x

/-! ### The whole exception -/

/-- A call of `wrapped_general` has returned, on processor `cpu` and with interrupts disabled, and has left
`registers` in the frame. -/
structure GeneralServed (cpu : ℕ) (top : Word) (registers : ContextField → Word) (c c' : CpuState) :
    Prop where
  onCpu : OnCpu cpu c'.core
  masked : Masked c'
  sp : c'.get .sp = c.get .sp
  frame : ∀ f, frameWord c'.core.mem top f = registers f

/-- The general exception takes the registers to the frame, and takes them back from it. -/
theorem handleGeneral_completes (h : OnCpu cpu c.core) (hsp : c.get .sp = top + BitVec.ofNat 32 contextSize)
    (hroom : ∀ p < maxCpu, FrameRoom p top) (cause badvaddr entryhi link link' : Word) :
    Completes (RefillRun cpu link') (generalEntry link) (c.raise cause badvaddr entryhi) fun c₁ =>
      FrameHolds (c.raise cause badvaddr entryhi) c₁.core.mem top ∧ Masked c₁ ∧
        ∀ p registers c₂, GeneralServed p top registers c₁ c₂ → (registers .status).getLsbD 1 = true →
          Completes (RefillRun p link') generalExit c₂ (GeneralLeft p c₂ top) := by
  have hr : OnCpu cpu (c.raise cause badvaddr entryhi).core := ⟨h.lt, h.dorder⟩
  refine (generalEntry_completes hr (exl_raise c cause badvaddr entryhi) hsp (hroom cpu h.lt) link link').mono
    fun c₁ he => ⟨he.frame, he.masked, fun p registers c₂ hs hexl => ?_⟩
  rw [← hs.frame] at hexl
  exact generalExit_completes hs.onCpu hs.masked (hs.sp.trans he.sp) (hroom p hs.onCpu.lt) hexl link'

end Kalisto
