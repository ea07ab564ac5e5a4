import Kalisto.Lib.Mips

/-!
# Exceptions of a MIPS processor

The registers that describe an exception, the instructions of exception handlers, and the execution of a
sequence of instructions that exceptions may interrupt.  A load or store of a mapped address may miss in
the TLB.  Outside the exception level this raises a refill exception, which ends with `eret`, and then
the instruction is executed again.  Within the exception level a miss is fatal, and so is an interrupt in
code that has not saved the registers of the last exception: nothing is known of what follows.

* `Calm.completes` — a part without mapped accesses that is protected from interrupts runs as if alone;
* `completes_of_fits` — a part that uses neither `k0` and `k1` nor the registers of exceptions runs as if
  alone up to what refill exceptions change;
* `Completes.append` — the parts of a program complete one after the other.
-/

namespace Mips.Exception

/-- The registers of the coprocessor 0 that an exception sets. -/
inductive ExcReg where
  | epc
  | cause
  | badvaddr
  deriving DecidableEq, Repr

/-- A processor with the registers of exceptions. -/
structure CpuState where
  core : Processor
  exc : ExcReg → BitVec 32

/-- The instructions of exception handlers. -/
inductive Insn where
  | plain (i : Instr)
  | addu (rd rs rt : Reg)
  | sll (rd rt : Reg) (shift : ℕ)
  | or (rd rs rt : Reg)
  | mfc0 (rt : Reg) (c : ExcReg)
  | mtc0 (rt : Reg) (c : ExcReg)
  /-- A call; `link` is the address after the delay slot. -/
  | jal (link : BitVec 32) (delay : Instr)
  | eret
  deriving DecidableEq, Repr

/-- A sequence of ordinary instructions. -/
def plains (is : List Instr) : List Insn := is.map .plain

theorem plains_append (is js : List Instr) : plains (is ++ js) = plains is ++ plains js := List.map_append

namespace CpuState

/-- The value of a register. -/
def get (c : CpuState) (r : Reg) : BitVec 32 := c.core.get r

/-- Write a register. -/
def set (c : CpuState) (r : Reg) (v : BitVec 32) : CpuState := { c with core := c.core.set r v }

/-- Write a register of exceptions. -/
def setExc (c : CpuState) (r : ExcReg) (v : BitVec 32) : CpuState :=
  { c with exc := Function.update c.exc r v }

/-- The register Status. -/
def status (c : CpuState) : BitVec 32 := c.core.cp0 .status

/-- The bit EXL of Status: the processor is in the exception level. -/
def exl (c : CpuState) : Bool := c.status.getLsbD 1

/-- The bit IE of Status: interrupts are enabled outside the exception level. -/
def ie (c : CpuState) : Bool := c.status.getLsbD 0

/-- The address space in EntryHi. -/
def asid (c : CpuState) : BitVec 8 := (c.core.cp0 .entryhi).setWidth 8

/-- An interrupt cannot happen. -/
def Protected (c : CpuState) : Prop := c.ie = false ∨ c.exl = true

/-- What the hardware does at an exception. -/
def raise (c : CpuState) (cause badvaddr entryhi : BitVec 32) : CpuState where
  core := (c.core.setCp0 .status (c.status ||| 2)).setCp0 .entryhi entryhi
  exc
    | .epc => c.core.pc
    | .cause => cause
    | .badvaddr => badvaddr

/-- What `eret` does. -/
def leave (c : CpuState) : CpuState :=
  { c with core := (c.core.setCp0 .status (c.status &&& ~~~2)).setPc (c.exc .epc) }

end CpuState

/-- **One instruction.** -/
def execInsn : Insn → CpuState → Outcome Trap CpuState
  | .plain i, c => do
    let m ← Mips.exec i c.core
    return { c with core := m }
  | .addu rd rs rt, c => .ok (c.set rd (c.get rs + c.get rt))
  | .sll rd rt shift, c => .ok (c.set rd (c.get rt <<< shift))
  | .or rd rs rt, c => .ok (c.set rd (c.get rs ||| c.get rt))
  | .mfc0 rt r, c => .ok (c.set rt (c.exc r))
  | .mtc0 rt r, c => .ok (c.setExc r (c.get rt))
  | .jal link delay, c => do
    let m ← Mips.exec delay (c.core.set .ra link)
    return { c with core := m }
  | .eret, c => .ok c.leave

/-- A sequence of instructions. -/
def runInsns : List Insn → CpuState → Outcome Trap CpuState
  | [], c => .ok c
  | i :: is, c => do
    let c ← execInsn i c
    runInsns is c

@[simp] theorem runInsns_nil (c : CpuState) : runInsns [] c = .ok c := rfl

theorem runInsns_cons (i : Insn) (is : List Insn) (c : CpuState) :
    runInsns (i :: is) c = (execInsn i c >>= runInsns is) := rfl

/-- A sequence of ordinary instructions. -/
theorem runInsns_plains (is : List Instr) (c : CpuState) :
    runInsns (plains is) c = (Mips.run is c.core >>= fun m => .ok { c with core := m }) := by
  induction is generalizing c with
  | nil => rfl
  | cons i is ih =>
    rw [plains, List.map_cons, runInsns_cons, Mips.run_cons, execInsn]
    cases Mips.exec i c.core with
    | ok m =>
      simp only [Outcome.ok_bind, Outcome.pure_eq]
      exact ih _
    | fault e => rfl
    | timeout => rfl

theorem runInsns_append (is js : List Insn) (c : CpuState) :
    runInsns (is ++ js) c = (runInsns is c >>= runInsns js) := by
  induction is generalizing c with
  | nil => rfl
  | cons i is ih =>
    rw [List.cons_append, runInsns_cons, runInsns_cons]
    cases execInsn i c with
    | ok c' => simp [ih]
    | fault e => simp
    | timeout => simp

section Instructions

variable {c : CpuState} {r q rt rs base : Reg} {v imm : BitVec 32} {offset a : ℕ}

namespace CpuState

@[simp] theorem get_set : (c.set r v).get q = if q = .zero then 0 else if q = r then v else c.get q :=
  Processor.get_set c.core r q v

theorem get_set_of_ne (h : q ≠ r) : (c.set r v).get q = c.get q := Processor.get_set_of_ne h c.core v

theorem get_set_self (h : r ≠ .zero) : (c.set r v).get r = v := Processor.get_set_self h c.core v

@[simp] theorem set_exc : (c.set r v).exc = c.exc := rfl

@[simp] theorem set_cp0 : (c.set r v).core.cp0 = c.core.cp0 := rfl

@[simp] theorem set_mem : (c.set r v).core.mem = c.core.mem := rfl

@[simp] theorem set_lo : (c.set r v).core.lo = c.core.lo := rfl

@[simp] theorem set_hi : (c.set r v).core.hi = c.core.hi := rfl

@[simp] theorem set_pc : (c.set r v).core.pc = c.core.pc := rfl

@[simp] theorem get_leave : c.leave.get r = c.get r := rfl

@[simp] theorem status_leave : c.leave.status = c.status &&& ~~~2 := rfl

@[simp] theorem pc_leave : c.leave.core.pc = c.exc .epc := rfl

@[simp] theorem asid_leave : c.leave.asid = c.asid := rfl

@[simp] theorem set_protected : (c.set r v).Protected ↔ c.Protected := Iff.rfl

end CpuState

theorem execInsn_la : execInsn (.plain (.la r imm)) c = .ok (c.set r imm) := rfl

theorem execInsn_addu : execInsn (.addu r q rt) c = .ok (c.set r (c.get q + c.get rt)) := rfl

theorem execInsn_sll {shift : ℕ} : execInsn (.sll r q shift) c = .ok (c.set r (c.get q <<< shift)) := rfl

theorem execInsn_or : execInsn (.or r q rt) c = .ok (c.set r (c.get q ||| c.get rt)) := rfl

theorem execInsn_lw (h : c.core.address base offset = .ok a) :
    execInsn (.plain (.lw rt offset base)) c = .ok (c.set rt (BitVec.ofNat 32 (c.core.mem.word a))) := by
  simp only [execInsn, Mips.exec, h, Outcome.ok_bind, Outcome.pure_eq]
  rfl

theorem execInsn_sw (h : c.core.address base offset = .ok a) :
    execInsn (.plain (.sw rt offset base)) c =
      .ok { c with core := c.core.setMem (c.core.mem.setWord a (c.get rt).toNat) } := by
  simp only [execInsn, Mips.exec, h, Outcome.ok_bind, Outcome.pure_eq]
  rfl

end Instructions

/-! ### Execution with exceptions -/

/-- The address that an instruction loads or stores. -/
def access (c : CpuState) : Insn → Option (BitVec 32)
  | .plain (.sw _ offset base) | .plain (.lw _ offset base) => some (c.get base + BitVec.ofNat 32 offset)
  | _ => none

/-- The addresses that are not translated, KSEG0 and KSEG1. -/
def Unmapped (a : BitVec 32) : Prop := 0x80000000 ≤ a.toNat ∧ a.toNat < 0xC0000000

/-- The instruction may miss in the TLB. -/
def MayMiss (c : CpuState) (i : Insn) : Prop := ∃ a, access c i = some a ∧ ¬Unmapped a

/-- **Execution of a sequence** in which the accepted refill exceptions are those of `refill`. -/
inductive Exec (refill : CpuState → CpuState → Prop) : List Insn → CpuState → CpuState → Prop
  | nil (c : CpuState) : Exec refill [] c c
  | step {i : Insn} {is : List Insn} {c c₁ c' : CpuState} (h : execInsn i c = .ok c₁)
      (hrest : Exec refill is c₁ c') : Exec refill (i :: is) c c'
  /-- A refill exception, and the instruction again. -/
  | refill {i : Insn} {is : List Insn} {c c₁ c' : CpuState} (hmiss : MayMiss c i) (hexl : c.exl = false)
      (h : refill c c₁) (hrest : Exec refill (i :: is) c₁ c') : Exec refill (i :: is) c c'
  /-- A miss within the exception level. -/
  | nested {i : Insn} {is : List Insn} {c c₁ c' : CpuState} (hmiss : MayMiss c i) (hexl : c.exl = true)
      (hrest : Exec refill (i :: is) c₁ c') : Exec refill (i :: is) c c'
  /-- An interrupt. -/
  | interrupt {i : Insn} {is : List Insn} {c c₁ c' : CpuState} (h : ¬c.Protected)
      (hrest : Exec refill (i :: is) c₁ c') : Exec refill (i :: is) c c'

variable {refill : CpuState → CpuState → Prop}

/-- Without exceptions. -/
theorem Exec.of_run {is : List Insn} {c c' : CpuState} (h : runInsns is c = .ok c') :
    Exec refill is c c' := by
  induction is generalizing c with
  | nil =>
    obtain rfl : c = c' := by simpa using h
    exact .nil c
  | cons i is ih =>
    obtain ⟨c₁, h₁, hrest⟩ := Outcome.bind_eq_ok.mp (runInsns_cons i is c ▸ h)
    exact .step h₁ (ih hrest)

/-- A sequence is executed part by part. -/
theorem Exec.append_iff {is js : List Insn} {c c' : CpuState} :
    Exec refill (is ++ js) c c' ↔ ∃ c₁, Exec refill is c c₁ ∧ Exec refill js c₁ c' := by
  constructor
  · intro h
    generalize hks : is ++ js = ks at h
    induction h generalizing is with
    | nil c =>
      obtain ⟨rfl, rfl⟩ := List.append_eq_nil_iff.mp hks
      exact ⟨c, .nil c, .nil c⟩
    | @step k ks c c₁ c' hk hrest ih =>
      rcases List.append_eq_cons_iff.mp hks with ⟨rfl, rfl⟩ | ⟨is', rfl, rfl⟩
      · exact ⟨c, .nil c, .step hk hrest⟩
      · obtain ⟨c₂, h₁, h₂⟩ := ih rfl
        exact ⟨c₂, .step hk h₁, h₂⟩
    | @refill k ks c c₁ c' hmiss hexl hr hrest ih =>
      rcases List.append_eq_cons_iff.mp hks with ⟨rfl, rfl⟩ | ⟨is', rfl, rfl⟩
      · exact ⟨c, .nil c, .refill hmiss hexl hr hrest⟩
      · obtain ⟨c₂, h₁, h₂⟩ := ih (show (k :: is') ++ js = _ from rfl)
        exact ⟨c₂, .refill hmiss hexl hr h₁, h₂⟩
    | @nested k ks c c₁ c' hmiss hexl hrest ih =>
      rcases List.append_eq_cons_iff.mp hks with ⟨rfl, rfl⟩ | ⟨is', rfl, rfl⟩
      · exact ⟨c, .nil c, .nested hmiss hexl hrest⟩
      · obtain ⟨c₂, h₁, h₂⟩ := ih (show (k :: is') ++ js = _ from rfl)
        exact ⟨c₂, .nested hmiss hexl h₁, h₂⟩
    | @interrupt k ks c c₁ c' hp hrest ih =>
      rcases List.append_eq_cons_iff.mp hks with ⟨rfl, rfl⟩ | ⟨is', rfl, rfl⟩
      · exact ⟨c, .nil c, .interrupt hp hrest⟩
      · obtain ⟨c₂, h₁, h₂⟩ := ih (show (k :: is') ++ js = _ from rfl)
        exact ⟨c₂, .interrupt hp h₁, h₂⟩
  · rintro ⟨c₁, h₁, h₂⟩
    induction h₁ with
    | nil c => exact h₂
    | step hk _ ih => exact .step hk (ih h₂)
    | refill hmiss hexl hr _ ih => exact .refill hmiss hexl hr (ih h₂)
    | nested hmiss hexl _ ih => exact .nested hmiss hexl (ih h₂)
    | interrupt hp _ ih => exact .interrupt hp (ih h₂)

/-! ### Parts without exceptions -/

/-- No instruction of the sequence can be interrupted or can miss. -/
def Quiet : List Insn → CpuState → Prop
  | [], _ => True
  | i :: is, c => ¬MayMiss c i ∧ c.Protected ∧ ∀ c₁, execInsn i c = .ok c₁ → Quiet is c₁

/-- **A quiet part runs as if alone.** -/
theorem Exec.of_quiet {is : List Insn} {c c' : CpuState} (hq : Quiet is c) :
    Exec refill is c c' ↔ runInsns is c = .ok c' := by
  constructor
  · intro h
    induction h with
    | nil c => rfl
    | step hk hrest ih =>
      rw [runInsns_cons, hk, Outcome.ok_bind]
      exact ih (hq.2.2 _ hk)
    | refill hmiss => exact absurd hmiss hq.1
    | nested hmiss => exact absurd hmiss hq.1
    | interrupt hp => exact absurd hq.2.1 hp
  · exact Exec.of_run

/-- The sequence completes, whatever exceptions it meets, and ends with `Q`. -/
def Completes (refill : CpuState → CpuState → Prop) (is : List Insn) (c : CpuState)
    (Q : CpuState → Prop) : Prop :=
  (∃ c', Exec refill is c c') ∧ ∀ c', Exec refill is c c' → Q c'

theorem Completes.mono {is : List Insn} {c : CpuState} {P Q : CpuState → Prop} (h : Completes refill is c P)
    (hPQ : ∀ c', P c' → Q c') : Completes refill is c Q :=
  ⟨h.1, fun c' hc => hPQ c' (h.2 c' hc)⟩

/-- One part after the other. -/
theorem Completes.append {is js : List Insn} {c : CpuState} {P Q : CpuState → Prop}
    (h : Completes refill is c P) (h' : ∀ c₁, P c₁ → Completes refill js c₁ Q) :
    Completes refill (is ++ js) c Q := by
  constructor
  · obtain ⟨c₁, h₁⟩ := h.1
    obtain ⟨c₂, h₂⟩ := (h' c₁ (h.2 c₁ h₁)).1
    exact ⟨c₂, Exec.append_iff.mpr ⟨c₁, h₁, h₂⟩⟩
  · intro c₂ hc
    obtain ⟨c₁, h₁, h₂⟩ := Exec.append_iff.mp hc
    exact (h' c₁ (h.2 c₁ h₁)).2 c₂ h₂

/-- The sequence is quiet and ends with `Q`. -/
structure Calm (is : List Insn) (c : CpuState) (Q : CpuState → Prop) : Prop where
  quiet : Quiet is c
  yields : (runInsns is c).Yields Q

theorem Calm.completes {is : List Insn} {c : CpuState} {Q : CpuState → Prop} (h : Calm is c Q) :
    Completes refill is c Q := by
  obtain ⟨c₁, hrun, hQ⟩ := h.yields
  refine ⟨⟨c₁, Exec.of_run hrun⟩, fun c' hc => ?_⟩
  have hc' := (Exec.of_quiet h.quiet).mp hc
  rw [hrun] at hc'
  cases hc'
  exact hQ

theorem calm_nil {c : CpuState} {Q : CpuState → Prop} (h : Q c) : Calm [] c Q :=
  ⟨trivial, Outcome.yields_ok h⟩

theorem calm_cons {i : Insn} {is : List Insn} {c c₁ : CpuState} {Q : CpuState → Prop} (hmiss : ¬MayMiss c i)
    (hp : c.Protected) (hi : execInsn i c = .ok c₁) (h : Calm is c₁ Q) : Calm (i :: is) c Q := by
  refine ⟨⟨hmiss, hp, fun c₂ h₂ => ?_⟩, ?_⟩
  · rw [hi] at h₂
    cases h₂
    exact h.quiet
  · rw [runInsns_cons, hi, Outcome.ok_bind]
    exact h.yields

/-- An instruction without an access cannot miss. -/
theorem not_mayMiss_of_none {c : CpuState} {i : Insn} (h : access c i = none) : ¬MayMiss c i := by
  rintro ⟨a, ha, -⟩
  rw [h] at ha
  cases ha

theorem Calm.mono {is : List Insn} {c : CpuState} {P Q : CpuState → Prop} (h : Calm is c P)
    (hPQ : ∀ c', P c' → Q c') : Calm is c Q :=
  ⟨h.quiet, h.yields.mono hPQ⟩

theorem Calm.append {is js : List Insn} {c : CpuState} {P Q : CpuState → Prop} (h : Calm is c P)
    (h' : ∀ c₁, P c₁ → Calm js c₁ Q) : Calm (is ++ js) c Q := by
  induction is generalizing c with
  | nil =>
    obtain ⟨c₁, h₁, hP⟩ := h.yields
    cases h₁
    exact h' c hP
  | cons i is ih =>
    obtain ⟨⟨hmiss, hp, hq⟩, c₂, h₂, hP⟩ := h
    obtain ⟨c₁, h₁, hrest⟩ := Outcome.bind_eq_ok.mp (runInsns_cons i is c ▸ h₂)
    exact calm_cons hmiss hp h₁ (ih ⟨hq c₁ h₁, c₂, hrest, hP⟩)

/-! ### Parts with refill exceptions -/

/-- Equal but for `k0`, `k1`, the page in EntryHi and the memory at `S`. -/
structure Agree (S : Set ℕ) (m d : Processor) : Prop where
  get : ∀ r, r ≠ .k0 → r ≠ .k1 → m.get r = d.get r
  lo : m.lo = d.lo
  hi : m.hi = d.hi
  status : m.cp0 .status = d.cp0 .status
  asid : (m.cp0 .entryhi).setWidth 8 = (d.cp0 .entryhi).setWidth 8
  pc : m.pc = d.pc
  mem : ∀ x, x ∉ S → m.mem x = d.mem x

namespace Agree

variable {S : Set ℕ} {m d n : Processor}

theorem refl (m : Processor) : Agree S m m :=
  ⟨fun _ _ _ => rfl, rfl, rfl, rfl, rfl, rfl, fun _ _ => rfl⟩

theorem symm (h : Agree S m d) : Agree S d m :=
  ⟨fun r h0 h1 => (h.get r h0 h1).symm, h.lo.symm, h.hi.symm, h.status.symm, h.asid.symm, h.pc.symm,
    fun x hx => (h.mem x hx).symm⟩

theorem trans (h : Agree S m d) (h' : Agree S d n) : Agree S m n :=
  ⟨fun r h0 h1 => (h.get r h0 h1).trans (h'.get r h0 h1), h.lo.trans h'.lo, h.hi.trans h'.hi,
    h.status.trans h'.status, h.asid.trans h'.asid, h.pc.trans h'.pc,
    fun x hx => (h.mem x hx).trans (h'.mem x hx)⟩

/-- The same value is written to a register. -/
theorem set (h : Agree S m d) (r : Reg) {v w : BitVec 32} (hv : v = w) : Agree S (m.set r v) (d.set r w) := by
  subst hv
  refine ⟨?_, h.lo, h.hi, h.status, h.asid, h.pc, h.mem⟩
  intro q h0 h1
  rw [Processor.get_set, Processor.get_set, h.get q h0 h1]

/-- The same word is stored. -/
theorem setWord (h : Agree S m d) (a v : ℕ) :
    Agree S (m.setMem (m.mem.setWord a v)) (d.setMem (d.mem.setWord a v)) := by
  refine ⟨h.get, h.lo, h.hi, h.status, h.asid, h.pc, ?_⟩
  intro x hx
  simp only [Processor.setMem, Memory.setWord, h.mem x hx]

/-- A word outside `S`. -/
theorem word (h : Agree S m d) {a : ℕ} (ha : ∀ x, a ≤ x → x < a + 4 → x ∉ S) :
    m.mem.word a = d.mem.word a :=
  Memory.word_congr fun x h0 h1 => h.mem x (ha x h0 h1)

end Agree

/-- The scratch registers of the kernel. -/
def scratch (r : Reg) : Bool := r = .k0 || r = .k1

/-- A register that is neither a scratch register nor a base. -/
def free (bs : List (Reg × ℕ)) (r : Reg) : Bool := !scratch r && bs.all fun p => p.1 ≠ r

/-- An aligned word within the room of a base. -/
def inside (bs : List (Reg × ℕ)) (offset : ℕ) (base : Reg) : Bool :=
  !scratch base && bs.any fun p => p.1 = base && offset + 4 ≤ p.2 && offset % 4 = 0

/-- The instruction reads and writes ordinary registers and memory within the room of the bases, which it
leaves as they are. -/
def fits (bs : List (Reg × ℕ)) : Instr → Bool
  | .addiu rt rs _ => free bs rt && !scratch rs
  | .la rd _ => free bs rd
  | .and rd rs | .or rd rs => free bs rd && !scratch rs
  | .sw rt offset base => !scratch rt && inside bs offset base
  | .lw rt offset base => free bs rt && inside bs offset base
  | .mflo rd | .mfhi rd => free bs rd
  | .mtlo rs | .mthi rs => !scratch rs
  | .mfc0 _ _ | .mtc0 _ _ | .j _ _ => false

/-- The rooms of the bases lie outside `S`. -/
def Bases (S : Set ℕ) (bs : List (Reg × ℕ)) (m : Processor) : Prop :=
  ∀ b n, (b, n) ∈ bs → Room (m.get b) n ∧ ∀ x, (m.get b).toNat ≤ x → x < (m.get b).toNat + n → x ∉ S

section Fits

variable {S : Set ℕ} {bs : List (Reg × ℕ)} {m d : Processor}

theorem not_scratch {r : Reg} (h : scratch r = false) : r ≠ .k0 ∧ r ≠ .k1 := by
  simpa [scratch] using h

theorem scratch_of_free {r : Reg} (h : free bs r = true) : scratch r = false := by
  simp only [free, Bool.and_eq_true, Bool.not_eq_true'] at h
  exact h.1

theorem scratch_of_inside {offset : ℕ} {base : Reg} (h : inside bs offset base = true) :
    scratch base = false := by
  simp only [inside, Bool.and_eq_true, Bool.not_eq_true'] at h
  exact h.1

theorem Bases.of_get (hb : Bases S bs m) (hget : ∀ b n, (b, n) ∈ bs → d.get b = m.get b) : Bases S bs d := by
  intro b n hmem
  rw [hget b n hmem]
  exact hb b n hmem

/-- The word of an access. -/
theorem Bases.address (hb : Bases S bs m) {offset : ℕ} {base : Reg} (h : inside bs offset base = true) :
    m.address base offset = .ok ((m.get base).toNat + offset) ∧
      ∀ x, (m.get base).toNat + offset ≤ x → x < (m.get base).toNat + offset + 4 → x ∉ S := by
  simp only [inside, Bool.and_eq_true, List.any_eq_true, decide_eq_true_eq] at h
  obtain ⟨-, ⟨b, n⟩, hmem, ⟨hbase, hn⟩, h4⟩ := h
  obtain rfl : b = base := hbase
  obtain ⟨hroom, hout⟩ := hb b n hmem
  exact ⟨hroom.address rfl (by omega) h4, fun x h0 h1 => hout x (by omega) (by omega)⟩

theorem Bases.mono {T : Set ℕ} (hb : Bases T bs m) (hST : S ⊆ T) : Bases S bs m :=
  fun b n hmem => ⟨(hb b n hmem).1, fun x h0 h1 hx => (hb b n hmem).2 x h0 h1 (hST hx)⟩

/-- An instruction that fits is executed, and alike in processors that agree. -/
theorem exec_fits (hb : Bases S bs d) (ha : Agree S m d) {i : Instr} (hi : fits bs i = true) :
    ∃ d₁ m₁, Mips.exec i d = .ok d₁ ∧ Mips.exec i m = .ok m₁ ∧ Agree S m₁ d₁ := by
  have hget : ∀ {r : Reg}, scratch r = false → m.get r = d.get r := fun h =>
    ha.get _ (not_scratch h).1 (not_scratch h).2
  cases i with
  | addiu rt rs imm =>
    simp only [fits, Bool.and_eq_true, Bool.not_eq_true'] at hi
    exact ⟨_, _, rfl, rfl, ha.set rt (by rw [hget hi.2])⟩
  | la rd imm => exact ⟨_, _, rfl, rfl, ha.set rd rfl⟩
  | and rd rs =>
    simp only [fits, Bool.and_eq_true, Bool.not_eq_true'] at hi
    exact ⟨_, _, rfl, rfl, ha.set rd (by rw [hget (scratch_of_free hi.1), hget hi.2])⟩
  | or rd rs =>
    simp only [fits, Bool.and_eq_true, Bool.not_eq_true'] at hi
    exact ⟨_, _, rfl, rfl, ha.set rd (by rw [hget (scratch_of_free hi.1), hget hi.2])⟩
  | sw rt offset base =>
    simp only [fits, Bool.and_eq_true, Bool.not_eq_true'] at hi
    obtain ⟨hd, _⟩ := hb.address hi.2
    have hm : m.address base offset = .ok ((d.get base).toNat + offset) := by
      rw [← hd, Processor.address, Processor.address, hget (scratch_of_inside hi.2)]
    refine ⟨d.setMem (d.mem.setWord ((d.get base).toNat + offset) (d.get rt).toNat),
      m.setMem (m.mem.setWord ((d.get base).toNat + offset) (m.get rt).toNat), ?_, ?_, ?_⟩
    · simp [Mips.exec, hd]
    · simp [Mips.exec, hm]
    · rw [hget hi.1]
      exact ha.setWord _ _
  | lw rt offset base =>
    simp only [fits, Bool.and_eq_true] at hi
    obtain ⟨hd, hout⟩ := hb.address hi.2
    have hm : m.address base offset = .ok ((d.get base).toNat + offset) := by
      rw [← hd, Processor.address, Processor.address, hget (scratch_of_inside hi.2)]
    refine ⟨d.set rt (BitVec.ofNat 32 (d.mem.word ((d.get base).toNat + offset))),
      m.set rt (BitVec.ofNat 32 (m.mem.word ((d.get base).toNat + offset))), ?_, ?_, ?_⟩
    · simp [Mips.exec, hd]
    · simp [Mips.exec, hm]
    · exact ha.set rt (by rw [ha.word hout])
  | mflo rd => exact ⟨_, _, rfl, rfl, ha.set rd ha.lo⟩
  | mfhi rd => exact ⟨_, _, rfl, rfl, ha.set rd ha.hi⟩
  | mtlo rs =>
    simp only [fits, Bool.not_eq_true'] at hi
    exact ⟨_, _, rfl, rfl, ⟨ha.get, hget hi, ha.hi, ha.status, ha.asid, ha.pc, ha.mem⟩⟩
  | mthi rs =>
    simp only [fits, Bool.not_eq_true'] at hi
    exact ⟨_, _, rfl, rfl, ⟨ha.get, ha.lo, hget hi, ha.status, ha.asid, ha.pc, ha.mem⟩⟩
  | mfc0 rt c => simp [fits] at hi
  | mtc0 rt c => simp [fits] at hi
  | j rs delay => simp [fits] at hi

theorem ne_of_free {r b : Reg} {n : ℕ} (h : free bs r = true) (hmem : (b, n) ∈ bs) : b ≠ r := by
  simp only [free, Bool.and_eq_true, List.all_eq_true] at h
  simpa using h.2 (b, n) hmem

/-- An instruction that fits leaves the bases. -/
theorem get_of_fits {i : Instr} {d₁ : Processor} (hi : fits bs i = true) (h : Mips.exec i d = .ok d₁)
    {b : Reg} {n : ℕ} (hmem : (b, n) ∈ bs) : d₁.get b = d.get b := by
  have hset : ∀ {r : Reg} {v : BitVec 32}, free bs r = true → (d.set r v).get b = d.get b :=
    fun hr => Processor.get_set_of_ne (ne_of_free hr hmem) d _
  cases i with
  | sw rt offset base =>
    obtain ⟨a, _, ha⟩ := Outcome.bind_eq_ok.mp h
    cases ha
    rfl
  | lw rt offset base =>
    simp only [fits, Bool.and_eq_true] at hi
    obtain ⟨a, _, ha⟩ := Outcome.bind_eq_ok.mp h
    cases ha
    exact hset hi.1
  | addiu rt rs imm =>
    simp only [fits, Bool.and_eq_true] at hi
    cases h
    exact hset hi.1
  | and rd rs =>
    simp only [fits, Bool.and_eq_true] at hi
    cases h
    exact hset hi.1
  | or rd rs =>
    simp only [fits, Bool.and_eq_true] at hi
    cases h
    exact hset hi.1
  | la rd imm =>
    cases h
    exact hset hi
  | mflo rd =>
    cases h
    exact hset hi
  | mfhi rd =>
    cases h
    exact hset hi
  | mtlo rs =>
    cases h
    rfl
  | mthi rs =>
    cases h
    rfl
  | mfc0 rt c => simp [fits] at hi
  | mtc0 rt c => simp [fits] at hi
  | j rs delay => simp [fits] at hi

/-- An instruction that fits leaves the memory that the rooms avoid. -/
theorem mem_of_fits (hb : Bases S bs d) {i : Instr} {d₁ : Processor} (hi : fits bs i = true)
    (h : Mips.exec i d = .ok d₁) : Set.EqOn d₁.mem d.mem S := by
  cases i with
  | sw rt offset base =>
    simp only [fits, Bool.and_eq_true] at hi
    obtain ⟨hd, hout⟩ := hb.address hi.2
    obtain rfl : d.setMem (d.mem.setWord ((d.get base).toNat + offset) (d.get rt).toNat) = d₁ := by
      simpa [Mips.exec, hd] using h
    refine fun x hx => Memory.setWord_of_outside ?_
    by_contra hin
    exact hout x (by omega) (by omega) hx
  | lw rt offset base =>
    obtain ⟨a, _, ha⟩ := Outcome.bind_eq_ok.mp h
    cases ha
    exact Set.eqOn_refl _ _
  | mfc0 rt c => simp [fits] at hi
  | mtc0 rt c => simp [fits] at hi
  | j rs delay => simp [fits] at hi
  | _ =>
    cases h
    exact Set.eqOn_refl _ _

theorem bases_of_fits (hb : Bases S bs d) {i : Instr} {d₁ : Processor} (hi : fits bs i = true)
    (h : Mips.exec i d = .ok d₁) : Bases S bs d₁ :=
  hb.of_get fun _ _ hmem => get_of_fits hi h hmem

/-- An instruction that fits does not change the coprocessor. -/
theorem cp0_of_fits {i : Instr} {m₁ : Processor} (hi : fits bs i = true) (h : Mips.exec i m = .ok m₁) :
    m₁.cp0 = m.cp0 := by
  cases i with
  | sw rt offset base =>
    obtain ⟨a, _, ha⟩ := Outcome.bind_eq_ok.mp h
    cases ha
    rfl
  | lw rt offset base =>
    obtain ⟨a, _, ha⟩ := Outcome.bind_eq_ok.mp h
    cases ha
    rfl
  | mfc0 rt c => simp [fits] at hi
  | mtc0 rt c => simp [fits] at hi
  | j rs delay => simp [fits] at hi
  | _ =>
    cases h
    rfl

/-- A sequence that fits is executed. -/
theorem run_fits (hb : Bases S bs d) (ha : Agree S m d) {is : List Instr}
    (hi : is.all (fits bs) = true) : ∃ m', Mips.run is m = .ok m' := by
  induction is generalizing m d with
  | nil => exact ⟨m, rfl⟩
  | cons i is ih =>
    rw [List.all_cons, Bool.and_eq_true] at hi
    obtain ⟨d₁, m₁, hd₁, hm₁, ha₁⟩ := exec_fits hb ha hi.1
    obtain ⟨m', hrun⟩ := ih (bases_of_fits hb hi.1 hd₁) ha₁ hi.2
    exact ⟨m', by rw [Mips.run_cons, hm₁, Outcome.ok_bind, hrun]⟩

/-- Refill exceptions change only `S` and scratch registers, where the memory at `D` is `dev`. -/
def Transparent (S D : Set ℕ) (dev : Memory) (refill : CpuState → CpuState → Prop) : Prop :=
  ∀ c c', Set.EqOn c.core.mem dev D → refill c c' → Agree S c'.core c.core

variable {D : Set ℕ} {dev : Memory}

/-- Interrupts are disabled outside the exception level. -/
structure Masked (c : CpuState) : Prop where
  ie : c.ie = false
  exl : c.exl = false

theorem Masked.of_status {c c' : CpuState} (h : Masked c) (hs : c'.status = c.status) : Masked c' :=
  ⟨by simpa [CpuState.ie, hs] using h.ie, by simpa [CpuState.exl, hs] using h.exl⟩

/-- What is left of the run as if alone: it agrees with `d`. -/
structure Follows (S D : Set ℕ) (dev : Memory) (d : Processor) (c : CpuState) : Prop where
  agree : Agree S c.core d
  devices : Set.EqOn d.mem dev D
  masked : Masked c

theorem Exec.follows (hrefill : Transparent S D dev refill) (hD : Disjoint S D) {is : List Instr}
    {c c' : CpuState} {d : Processor} (h : Exec refill (plains is) c c') (hi : is.all (fits bs) = true)
    (hb : Bases (S ∪ D) bs d) (hf : Follows S D dev d c) :
    ∃ d', Mips.run is d = .ok d' ∧ Follows S D dev d' c' := by
  generalize hks : plains is = ks at h
  induction h generalizing is d with
  | nil c =>
    obtain rfl : is = [] := by simpa [plains] using hks
    exact ⟨d, rfl, hf⟩
  | @step k ks c c₁ c' hk hrest ih =>
    cases is with
    | nil => simp [plains] at hks
    | cons i is =>
      obtain ⟨rfl, rfl⟩ : Insn.plain i = k ∧ plains is = ks := by simpa [plains] using hks
      rw [List.all_cons, Bool.and_eq_true] at hi
      obtain ⟨d₁, m₁, hd₁, hm₁, ha₁⟩ := exec_fits (hb.mono Set.subset_union_left) hf.agree hi.1
      have hmem₁ := mem_of_fits hb hi.1 hd₁
      obtain rfl : { c with core := m₁ } = c₁ := by simpa [execInsn, hm₁] using hk
      have hf₁ : Follows S D dev d₁ { c with core := m₁ } :=
        ⟨ha₁, (hmem₁.mono Set.subset_union_right).trans hf.devices,
          hf.masked.of_status (congrFun (cp0_of_fits hi.1 hm₁) .status)⟩
      obtain ⟨d', hrun, hf'⟩ := ih hi.2 (bases_of_fits hb hi.1 hd₁) hf₁ rfl
      exact ⟨d', by rw [Mips.run_cons, hd₁, Outcome.ok_bind, hrun], hf'⟩
  | @refill k ks c c₁ c' _ _ hr _ ih =>
    have hdev : Set.EqOn c.core.mem dev D := fun x hx =>
      (hf.agree.mem x (hD.notMem_of_mem_right hx)).trans (hf.devices hx)
    have hac := hrefill c c₁ hdev hr
    exact ih hi hb ⟨hac.trans hf.agree, hf.devices, hf.masked.of_status hac.status⟩ hks
  | nested _ hin =>
    have hout := hf.masked.exl
    simp [hin] at hout
  | interrupt hp => exact absurd (.inl hf.masked.ie) hp

/-- **A part that fits runs as if alone**, up to what refill exceptions change. -/
theorem completes_of_fits (bs : List (Reg × ℕ)) (hrefill : Transparent S D dev refill) (hD : Disjoint S D)
    {is : List Instr}
    {c : CpuState} {d : Processor} (hi : is.all (fits bs) = true) (hb : Bases (S ∪ D) bs d)
    (hf : Follows S D dev d c) {Q : Processor → Prop} (hQ : (Mips.run is d).Yields Q) :
    Completes refill (plains is) c fun c' => ∃ d', Q d' ∧ Follows S D dev d' c' := by
  constructor
  · obtain ⟨m', hrun⟩ := run_fits (hb.mono Set.subset_union_left) hf.agree hi
    refine ⟨{ c with core := m' }, Exec.of_run ?_⟩
    rw [runInsns_plains, hrun, Outcome.ok_bind]
  · intro c' hc
    obtain ⟨d', hrun, hf'⟩ := Exec.follows hrefill hD hc hi hb hf
    obtain ⟨d₁, h₁, hQ₁⟩ := hQ
    rw [hrun] at h₁
    cases h₁
    exact ⟨d', hQ₁, hf'⟩

end Fits

end Mips.Exception
