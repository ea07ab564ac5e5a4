import Kalisto.Lib.Outcome
import Kalisto.Lib.ByteMemory

/-!
# A MIPS processor

The general registers, the registers LO and HI, two registers of the coprocessor 0, and the
instructions that save and restore them.  Programs are lists of instructions; a jump is the last one
and carries the instruction of its delay slot.

* `run_append` — a program runs part by part;
* `run_stores`, `run_loads` — a sequence of stores relative to one register, and one of loads;
* `stores_word`, `stores_outside` — what memory holds after the stores.
-/

namespace Mips

/-- The general registers. -/
inductive Reg where
  | zero | at | v0 | v1 | a0 | a1 | a2 | a3
  | t0 | t1 | t2 | t3 | t4 | t5 | t6 | t7 | t8 | t9
  | s0 | s1 | s2 | s3 | s4 | s5 | s6 | s7
  | k0 | k1 | gp | fp | sp | ra
  deriving DecidableEq, Repr

/-- The registers of the coprocessor 0. -/
inductive Cp0 where
  | status
  | entryhi
  deriving DecidableEq, Repr

/-- The processor and its memory. -/
structure Processor where
  regs : Reg → BitVec 32
  lo : BitVec 32
  hi : BitVec 32
  cp0 : Cp0 → BitVec 32
  pc : BitVec 32
  mem : Memory

/-- An address error. -/
inductive Trap where
  | unaligned
  deriving DecidableEq, Repr

/-- The instructions, with the constants as they stand in assembly code. -/
inductive Instr where
  | addiu (rt rs : Reg) (imm : BitVec 32)
  | la (rd : Reg) (imm : BitVec 32)
  | and (rd rs : Reg)
  | or (rd rs : Reg)
  | sw (rt : Reg) (offset : ℕ) (base : Reg)
  | lw (rt : Reg) (offset : ℕ) (base : Reg)
  | mflo (rd : Reg)
  | mfhi (rd : Reg)
  | mtlo (rs : Reg)
  | mthi (rs : Reg)
  | mfc0 (rt : Reg) (c : Cp0)
  | mtc0 (rt : Reg) (c : Cp0)
  | j (rs : Reg) (delay : Instr)
  deriving DecidableEq, Repr

namespace Processor

/-- The value of a register; `zero` is always 0. -/
def get (m : Processor) (r : Reg) : BitVec 32 := if r = .zero then 0 else m.regs r

/-- Write a register. -/
@[simps -fullyApplied] def set (m : Processor) (r : Reg) (v : BitVec 32) : Processor :=
  { m with regs := Function.update m.regs r v }

@[simps -fullyApplied] def setLo (m : Processor) (v : BitVec 32) : Processor := { m with lo := v }

@[simps -fullyApplied] def setHi (m : Processor) (v : BitVec 32) : Processor := { m with hi := v }

@[simps -fullyApplied] def setCp0 (m : Processor) (c : Cp0) (v : BitVec 32) : Processor :=
  { m with cp0 := Function.update m.cp0 c v }

@[simps -fullyApplied] def setPc (m : Processor) (v : BitVec 32) : Processor := { m with pc := v }

@[simps -fullyApplied] def setMem (m : Processor) (mem : Memory) : Processor := { m with mem := mem }

@[simp] theorem get_set (m : Processor) (r q : Reg) (v : BitVec 32) :
    (m.set r v).get q = if q = .zero then 0 else if q = r then v else m.get q := by
  by_cases hz : q = .zero
  · simp [get, hz]
  · by_cases hq : q = r <;> simp [get, set, hz, hq]

/-- The other registers. -/
theorem get_set_of_ne {r q : Reg} (h : q ≠ r) (m : Processor) (v : BitVec 32) :
    (m.set r v).get q = m.get q := by
  rw [get_set, if_neg h]
  split
  · next hz =>
    rw [hz]
    rfl
  · rfl

/-- A register that can be written. -/
theorem get_set_self {r : Reg} (h : r ≠ .zero) (m : Processor) (v : BitVec 32) : (m.set r v).get r = v := by
  rw [get_set, if_neg h, if_pos rfl]

@[simp] theorem get_zero (m : Processor) : m.get .zero = 0 := rfl

@[simp] theorem get_setLo (m : Processor) (v : BitVec 32) (r : Reg) : (m.setLo v).get r = m.get r := rfl

@[simp] theorem get_setHi (m : Processor) (v : BitVec 32) (r : Reg) : (m.setHi v).get r = m.get r := rfl

@[simp] theorem get_setCp0 (m : Processor) (c : Cp0) (v : BitVec 32) (r : Reg) :
    (m.setCp0 c v).get r = m.get r := rfl

@[simp] theorem get_setPc (m : Processor) (v : BitVec 32) (r : Reg) : (m.setPc v).get r = m.get r := rfl

@[simp] theorem get_setMem (m : Processor) (mem : Memory) (r : Reg) : (m.setMem mem).get r = m.get r := rfl

/-- The effective address of a load or store of a word. -/
def address (m : Processor) (base : Reg) (offset : ℕ) : Outcome Trap ℕ :=
  let a := (m.get base + BitVec.ofNat 32 offset).toNat
  if a % 4 = 0 then .ok a else .fault .unaligned

end Processor

/-- **One instruction.** -/
def exec : Instr → Processor → Outcome Trap Processor
  | .addiu rt rs imm, m => .ok (m.set rt (m.get rs + imm))
  | .la rd imm, m => .ok (m.set rd imm)
  | .and rd rs, m => .ok (m.set rd (m.get rd &&& m.get rs))
  | .or rd rs, m => .ok (m.set rd (m.get rd ||| m.get rs))
  | .sw rt offset base, m => do
    let a ← m.address base offset
    return m.setMem (m.mem.setWord a (m.get rt).toNat)
  | .lw rt offset base, m => do
    let a ← m.address base offset
    return m.set rt (BitVec.ofNat 32 (m.mem.word a))
  | .mflo rd, m => .ok (m.set rd m.lo)
  | .mfhi rd, m => .ok (m.set rd m.hi)
  | .mtlo rs, m => .ok (m.setLo (m.get rs))
  | .mthi rs, m => .ok (m.setHi (m.get rs))
  | .mfc0 rt c, m => .ok (m.set rt (m.cp0 c))
  | .mtc0 rt c, m => .ok (m.setCp0 c (m.get rt))
  | .j rs delay, m => do
    -- the target is read before the delay slot is executed
    let target := m.get rs
    let m ← exec delay m
    return m.setPc target

/-- A program. -/
def run : List Instr → Processor → Outcome Trap Processor
  | [], m => .ok m
  | i :: is, m => do
    let m ← exec i m
    run is m

@[simp] theorem run_nil (m : Processor) : run [] m = .ok m := rfl

theorem run_cons (i : Instr) (is : List Instr) (m : Processor) : run (i :: is) m = (exec i m >>= run is) := rfl

theorem run_append (is js : List Instr) (m : Processor) : run (is ++ js) m = (run is m >>= run js) := by
  induction is generalizing m with
  | nil => rfl
  | cons i is ih =>
    rw [List.cons_append, run_cons, run_cons]
    cases exec i m with
    | ok m' => simp [ih]
    | fault e => simp
    | timeout => simp

/-! ### Stores and loads relative to a register -/

/-- The addresses from `top` on are aligned and below the end of memory, for `n` bytes. -/
structure Room (top : BitVec 32) (n : ℕ) : Prop where
  aligned : top.toNat % 4 = 0
  fits : top.toNat + n ≤ 2 ^ 32

theorem Room.address {top : BitVec 32} {n : ℕ} (h : Room top n) {m : Processor} {base : Reg}
    (hb : m.get base = top) {offset : ℕ} (ho : offset < n) (h4 : offset % 4 = 0) :
    m.address base offset = .ok (top.toNat + offset) := by
  have hfits := h.fits
  have haligned := h.aligned
  have hsum : (top + BitVec.ofNat 32 offset).toNat = top.toNat + offset := by
    rw [BitVec.toNat_add, BitVec.toNat_ofNat, Nat.mod_eq_of_lt (show offset < 2 ^ 32 by omega),
      Nat.mod_eq_of_lt (by omega)]
  rw [Processor.address, hb, hsum, if_pos (by omega)]

section Stores

variable {ι : Type} {offset : ι → ℕ} {n : ℕ}

/-- Memory after words were stored at some offsets. -/
def stores (offset : ι → ℕ) (top : ℕ) (ws : List (ι × BitVec 32)) (mem : Memory) : Memory :=
  ws.foldl (fun mem w => mem.setWord (top + offset w.1) w.2.toNat) mem

theorem stores_append (top : ℕ) (ws vs : List (ι × BitVec 32)) (mem : Memory) :
    stores offset top (ws ++ vs) mem = stores offset top vs (stores offset top ws mem) :=
  List.foldl_append

/-- The bytes outside the range of the offsets stay. -/
theorem stores_outside {top x : ℕ} (ho : ∀ i, offset i + 4 ≤ n) (hx : x < top ∨ top + n ≤ x)
    (ws : List (ι × BitVec 32)) (mem : Memory) : stores offset top ws mem x = mem x := by
  induction ws generalizing mem with
  | nil => rfl
  | cons w ws ih =>
    rw [stores, List.foldl_cons]
    refine (ih _).trans (Memory.setWord_of_outside ?_)
    have := ho w.1
    omega

/-- Words at other offsets stay. -/
theorem stores_word_of_not_mem {top : ℕ} (htop : top % 4 = 0) (h4 : ∀ i, offset i % 4 = 0)
    (hinj : Function.Injective offset) {i : ι} {ws : List (ι × BitVec 32)}
    (hi : i ∉ ws.map Prod.fst) (mem : Memory) :
    (stores offset top ws mem).word (top + offset i) = mem.word (top + offset i) := by
  induction ws generalizing mem with
  | nil => rfl
  | cons w ws ih =>
    simp only [List.map_cons, List.mem_cons, not_or] at hi
    rw [stores, List.foldl_cons]
    refine (ih hi.2 _).trans (Memory.word_setWord_of_ne ?_ ?_ ?_)
    · have := h4 w.1
      omega
    · have := h4 i
      omega
    · intro heq
      exact hi.1 (hinj (by omega))

/-- **The words that were stored** are read back. -/
theorem stores_word {top : ℕ} (htop : top % 4 = 0) (h4 : ∀ i, offset i % 4 = 0)
    (hinj : Function.Injective offset) {i : ι} {v : BitVec 32} {ws : List (ι × BitVec 32)}
    (hnd : (ws.map Prod.fst).Nodup) (hi : (i, v) ∈ ws) (mem : Memory) :
    BitVec.ofNat 32 ((stores offset top ws mem).word (top + offset i)) = v := by
  induction ws generalizing mem with
  | nil => simp at hi
  | cons w ws ih =>
    obtain ⟨hw, hnd⟩ := List.nodup_cons.mp hnd
    rw [stores, List.foldl_cons]
    rcases List.mem_cons.mp hi with rfl | hi
    · have hword := stores_word_of_not_mem htop h4 hinj hw
        (mem.setWord (top + offset i) v.toNat)
      rw [stores] at hword
      rw [hword, Memory.word_setWord_self]
      apply BitVec.eq_of_toNat_eq
      simpa using v.isLt
    · exact ih hnd hi _

variable {top : BitVec 32} {base : Reg} {m : Processor}

/-- **A sequence of stores.** -/
theorem run_stores (h : Room top n) (hb : m.get base = top) (ho : ∀ i, offset i < n)
    (h4 : ∀ i, offset i % 4 = 0) (field : Reg → ι) (rs : List Reg) :
    run (rs.map fun r => .sw r (offset (field r)) base) m =
      .ok (m.setMem (stores offset top.toNat (rs.map fun r => (field r, m.get r)) m.mem)) := by
  induction rs generalizing m with
  | nil => rfl
  | cons r rs ih =>
    rw [List.map_cons, run_cons]
    simp only [exec, h.address hb (ho _) (h4 _), Outcome.ok_bind, Outcome.pure_eq]
    exact ih hb

/-- **A sequence of loads**, none of them into the base register. -/
theorem run_loads (h : Room top n) (hb : m.get base = top) (ho : ∀ i, offset i < n)
    (h4 : ∀ i, offset i % 4 = 0) (field : Reg → ι) (rs : List Reg) (hrs : base ∉ rs) :
    ∃ m', run (rs.map fun r => .lw r (offset (field r)) base) m = .ok m' ∧ m'.mem = m.mem ∧
      m'.lo = m.lo ∧ m'.hi = m.hi ∧ m'.cp0 = m.cp0 ∧
      (∀ r ∈ rs, r ≠ .zero →
        m'.get r = BitVec.ofNat 32 (m.mem.word (top.toNat + offset (field r)))) ∧
      ∀ r, r ∉ rs → m'.get r = m.get r := by
  induction rs generalizing m with
  | nil => exact ⟨m, rfl, rfl, rfl, rfl, rfl, by simp, by simp⟩
  | cons r rs ih =>
    simp only [List.mem_cons, not_or] at hrs
    let m₁ := m.set r (BitVec.ofNat 32 (m.mem.word (top.toNat + offset (field r))))
    have hb₁ : m₁.get base = top := by
      rw [← hb]
      exact Processor.get_set_of_ne hrs.1 m _
    obtain ⟨m', hrun, hmem, hlo, hhi, hcp0, hin, hout⟩ := ih hb₁ hrs.2
    refine ⟨m', ?_, hmem, hlo, hhi, hcp0, fun q hq hz => ?_, fun q hq => ?_⟩
    · rw [List.map_cons, run_cons]
      simp only [exec, h.address hb (ho _) (h4 _), Outcome.ok_bind, Outcome.pure_eq]
      exact hrun
    · by_cases hqs : q ∈ rs
      · exact hin q hqs hz
      · obtain rfl : q = r := by simpa [hqs] using hq
        rw [hout q hqs]
        simp [m₁, hz]
    · simp only [List.mem_cons, not_or] at hq
      rw [hout q hq.2]
      exact Processor.get_set_of_ne hq.1 m _

end Stores

end Mips
