import Kalisto.Lib.MipsException

/-!
# Routines of exception handlers

Sequences that store registers of the coprocessor 0 in memory that is not translated (`saveCp`), and
that copy words from one place to another (`copies`).
-/

namespace Mips.Exception

/-! ### What a routine leaves -/

/-- Two states differ in some general registers and in memory only. -/
structure SameBut (rs : List Reg) (c c' : CpuState) : Prop where
  get : ∀ r, r ∉ rs → c'.get r = c.get r
  lo : c'.core.lo = c.core.lo
  hi : c'.core.hi = c.core.hi
  cp0 : c'.core.cp0 = c.core.cp0
  pc : c'.core.pc = c.core.pc
  exc : c'.exc = c.exc

namespace SameBut

variable {rs : List Reg} {c d e : CpuState}

theorem refl : SameBut rs c c := ⟨fun _ _ => rfl, rfl, rfl, rfl, rfl, rfl⟩

theorem trans (h : SameBut rs c d) (h' : SameBut rs d e) : SameBut rs c e :=
  ⟨fun r hr => (h'.get r hr).trans (h.get r hr), h'.lo.trans h.lo, h'.hi.trans h.hi,
    h'.cp0.trans h.cp0, h'.pc.trans h.pc, h'.exc.trans h.exc⟩

theorem set (h : SameBut rs c d) {r : Reg} (hr : r ∈ rs) {v : BitVec 32} : SameBut rs c (d.set r v) :=
  ⟨fun q hq => (CpuState.get_set_of_ne (ne_of_mem_of_not_mem hr hq).symm).trans (h.get q hq), h.lo, h.hi,
    h.cp0, h.pc, h.exc⟩

theorem setMem (h : SameBut rs c d) (mem : Memory) : SameBut rs c { d with core := d.core.setMem mem } :=
  ⟨h.get, h.lo, h.hi, h.cp0, h.pc, h.exc⟩

theorem status (h : SameBut rs c d) : d.status = c.status := congrFun h.cp0 .status

theorem protects (h : SameBut rs c d) (hp : c.Protected) : d.Protected := by
  simpa [CpuState.Protected, CpuState.ie, CpuState.exl, h.status] using hp

theorem masked (h : SameBut rs c d) (hm : Masked c) : Masked d := hm.of_status h.status

end SameBut

/-- A part that computes one register `ptr` with the scratch registers. -/
theorem Follows.set {S D : Set ℕ} {dev : Memory} {d : Processor} {c c' : CpuState} (hf : Follows S D dev d c)
    {ptr : Reg} {v : BitVec 32} (h : SameBut [.k0, .k1, ptr] c c') (hmem : c'.core.mem = c.core.mem)
    (h0 : ptr ≠ .zero) (hv : c'.get ptr = v) : Follows S D dev (d.set ptr v) c' := by
  refine ⟨⟨fun r hr0 hr1 => ?_, h.lo.trans hf.agree.lo, h.hi.trans hf.agree.hi, ?_, ?_,
    h.pc.trans hf.agree.pc, fun x hx => ?_⟩, hf.devices, h.masked hf.masked⟩
  · by_cases hr : r = ptr
    · rw [hr, Processor.get_set_self h0]
      exact hv
    · rw [Processor.get_set_of_ne hr]
      exact (h.get r (by simp [hr0, hr1, hr])).trans (hf.agree.get r hr0 hr1)
  · exact (congrFun h.cp0 .status).trans hf.agree.status
  · rw [h.cp0]
    exact hf.agree.asid
  · rw [hmem]
    exact hf.agree.mem x hx

/-- An access to memory that is not translated. -/
theorem not_mayMiss_of_unmapped {c : CpuState} {i : Insn} {a : BitVec 32} (h : access c i = some a)
    (ha : Unmapped a) : ¬MayMiss c i := by
  rintro ⟨b, hb, hmiss⟩
  rw [h] at hb
  cases hb
  exact hmiss ha

/-! ### Memory that is not translated -/

/-- Words at which the offsets of a base are not translated. -/
structure Direct (top : BitVec 32) (n : ℕ) : Prop extends Room top n where
  kseg : 0x80000000 ≤ top.toNat
  below : top.toNat + n ≤ 0xC0000000

theorem Direct.unmapped {top : BitVec 32} {n : ℕ} (h : Direct top n) {o : ℕ} (ho : o < n) :
    Unmapped (top + BitVec.ofNat 32 o) := by
  have hfits := h.fits
  have hbelow := h.below
  have hsum : (top + BitVec.ofNat 32 o).toNat = top.toNat + o := by
    rw [BitVec.toNat_add, BitVec.toNat_ofNat, Nat.mod_eq_of_lt (show o < 2 ^ 32 by omega),
      Nat.mod_eq_of_lt (by omega)]
  have hkseg := h.kseg
  constructor <;> omega

theorem not_mayMiss_of_fits {bs : List (Reg × ℕ)} {c : CpuState}
    (hb : ∀ b n, (b, n) ∈ bs → Direct (c.core.get b) n) {i : Instr} (hi : fits bs i = true) :
    ¬MayMiss c (.plain i) := by
  have hinside : ∀ {offset : ℕ} {base : Reg}, inside bs offset base = true →
      Unmapped (c.get base + BitVec.ofNat 32 offset) := by
    intro offset base h
    simp only [inside, Bool.and_eq_true, List.any_eq_true, decide_eq_true_eq] at h
    obtain ⟨-, ⟨b, n⟩, hmem, ⟨hbase, hn⟩, -⟩ := h
    obtain rfl : b = base := hbase
    exact (hb b n hmem).unmapped (show offset < n by omega)
  cases i with
  | sw rt offset base =>
    simp only [fits, Bool.and_eq_true] at hi
    exact not_mayMiss_of_unmapped rfl (hinside hi.2)
  | lw rt offset base =>
    simp only [fits, Bool.and_eq_true] at hi
    exact not_mayMiss_of_unmapped rfl (hinside hi.2)
  | _ => exact not_mayMiss_of_none rfl

/-- **A part that fits in memory that is not translated** runs as if alone. -/
theorem calm_of_fits (bs : List (Reg × ℕ)) {c : CpuState}
    (hb : ∀ b n, (b, n) ∈ bs → Direct (c.core.get b) n) (hp : c.Protected) {is : List Instr}
    (hi : is.all (fits bs) = true) {Q : Processor → Prop} (hQ : (Mips.run is c.core).Yields Q) :
    Calm (plains is) c fun c' => Q c'.core ∧ c'.exc = c.exc ∧ c'.core.cp0 = c.core.cp0 := by
  induction is generalizing c with
  | nil =>
    obtain ⟨m, hm, hQm⟩ := hQ
    cases hm
    exact calm_nil ⟨hQm, rfl, rfl⟩
  | cons i is ih =>
    rw [List.all_cons, Bool.and_eq_true] at hi
    obtain ⟨m, hm, hQm⟩ := hQ
    obtain ⟨m₁, hm₁, hrest⟩ := Outcome.bind_eq_ok.mp (run_cons i is c.core ▸ hm)
    have hcp0 : m₁.cp0 = c.core.cp0 := cp0_of_fits hi.1 hm₁
    have hstatus : ({ c with core := m₁ } : CpuState).status = c.status := congrFun hcp0 .status
    have hb₁ : ∀ b n, (b, n) ∈ bs → Direct (m₁.get b) n := fun b n hmem =>
      (get_of_fits hi.1 hm₁ hmem).symm ▸ hb b n hmem
    have hp₁ : ({ c with core := m₁ } : CpuState).Protected := by
      simpa [CpuState.Protected, CpuState.ie, CpuState.exl, hstatus] using hp
    have hexec : execInsn (.plain i) c = .ok { c with core := m₁ } := by
      rw [execInsn, hm₁]
      rfl
    refine calm_cons (not_mayMiss_of_fits hb hi.1) hp hexec
      ((ih hb₁ hp₁ hi.2 ⟨m, hrest, hQm⟩).mono fun c' hc => ⟨hc.1, hc.2.1, hc.2.2.trans hcp0⟩)

/-! ### Saving registers of the coprocessor 0 -/

/-- The registers of the coprocessor 0. -/
inductive CpReg where
  | exc (r : ExcReg)
  | cp0 (r : Cp0)
  deriving DecidableEq, Repr

/-- The value of a register of the coprocessor 0. -/
def CpuState.cp (c : CpuState) : CpReg → BitVec 32
  | .exc r => c.exc r
  | .cp0 r => c.core.cp0 r

/-- `mfc0`. -/
def readCp (rt : Reg) : CpReg → Insn
  | .exc r => .mfc0 rt r
  | .cp0 r => .plain (.mfc0 rt r)

theorem execInsn_readCp (c : CpuState) (rt : Reg) (r : CpReg) :
    execInsn (readCp rt r) c = .ok (c.set rt (c.cp r)) := by
  cases r <;> rfl

theorem access_readCp (c : CpuState) (rt : Reg) (r : CpReg) : access c (readCp rt r) = none := by
  cases r <;> rfl

section SaveCp

variable {ι : Type} {offset : ι → ℕ} {n : ℕ} {top : BitVec 32} {base : Reg} {c : CpuState}

/-- A store to memory that is not translated. -/
theorem calm_sw (h : Direct top n) (hb : c.get base = top) (hp : c.Protected) {o : ℕ} (ho : o < n)
    (h4 : o % 4 = 0) (rt : Reg) {is : List Insn} {Q : CpuState → Prop}
    (hrest : Calm is
      { c with core := c.core.setMem (c.core.mem.setWord (top.toNat + o) (c.get rt).toNat) } Q) :
    Calm (.plain (.sw rt o base) :: is) c Q :=
  calm_cons (not_mayMiss_of_unmapped rfl (hb ▸ h.unmapped ho)) hp (execInsn_sw (h.address hb ho h4)) hrest

/-- A load from memory that is not translated. -/
theorem calm_lw (h : Direct top n) (hb : c.get base = top) (hp : c.Protected) {o : ℕ} (ho : o < n)
    (h4 : o % 4 = 0) (rt : Reg) {is : List Insn} {Q : CpuState → Prop}
    (hrest : Calm is (c.set rt (BitVec.ofNat 32 (c.core.mem.word (top.toNat + o)))) Q) :
    Calm (.plain (.lw rt o base) :: is) c Q :=
  calm_cons (not_mayMiss_of_unmapped rfl (hb ▸ h.unmapped ho)) hp (execInsn_lw (h.address hb ho h4)) hrest

/-- Registers of the coprocessor 0 are stored at the offsets of a base, through a temporary register. -/
def saveCp (offset : ι → ℕ) (temp base : Reg) (fs : List (CpReg × ι)) : List Insn :=
  fs.flatMap fun f => [readCp temp f.1, .plain (.sw temp (offset f.2) base)]

/-- **`saveCp`** stores the registers, and leaves the last one in the temporary register. -/
theorem saveCp_calm (h : Direct top n) {temp : Reg} (htemp : temp ≠ .zero) (hne : base ≠ temp)
    (hb : c.get base = top) (hp : c.Protected) (ho : ∀ i, offset i < n) (h4 : ∀ i, offset i % 4 = 0)
    (fs : List (CpReg × ι)) :
    Calm (saveCp offset temp base fs) c fun c' => SameBut [temp] c c' ∧
      c'.get temp = (fs.map fun f => c.cp f.1).getLastD (c.get temp) ∧
      c'.core.mem = stores offset top.toNat (fs.map fun f => (f.2, c.cp f.1)) c.core.mem := by
  induction fs generalizing c with
  | nil => exact calm_nil ⟨.refl, rfl, rfl⟩
  | cons f fs ih =>
    let c₁ := c.set temp (c.cp f.1)
    let c₂ : CpuState := { c₁ with
      core := c₁.core.setMem (c₁.core.mem.setWord (top.toNat + offset f.2) (c₁.get temp).toNat) }
    have hb₁ : c₁.get base = top := (CpuState.get_set_of_ne hne).trans hb
    have hp₁ : c₁.Protected := CpuState.set_protected.mpr hp
    have hsame : SameBut [temp] c c₂ := (SameBut.refl.set (List.mem_singleton_self temp)).setMem _
    have hcp : ∀ r, c₂.cp r = c.cp r := by
      intro r
      cases r <;> rfl
    refine calm_cons (not_mayMiss_of_none (access_readCp c temp f.1)) hp (execInsn_readCp c temp f.1) ?_
    refine calm_sw h hb₁ hp₁ (ho f.2) (h4 f.2) temp ((ih (c := c₂) hb₁ (hsame.protects hp)).mono ?_)
    rintro c' ⟨hc', hlast, hmem⟩
    have htemp₂ : c₂.get temp = c.cp f.1 := CpuState.get_set_self htemp
    simp only [hcp, htemp₂] at hlast hmem
    refine ⟨hsame.trans hc', by rw [hlast, List.map_cons, List.getLastD_cons], ?_⟩
    rw [hmem, List.map_cons, stores, stores, List.foldl_cons]
    show stores offset top.toNat _ (c.core.mem.setWord (top.toNat + offset f.2) (c₂.get temp).toNat) = _
    rw [htemp₂]
    rfl

end SaveCp

/-! ### Copying words -/

section Copies

variable {ι κ : Type} {offset : ι → ℕ} {offset' : κ → ℕ} {n k : ℕ} {top top' : BitVec 32}
  {base base' : Reg} {m : Processor}

/-- Words at offsets of one base are copied to offsets of another one. -/
def copies (offset : ι → ℕ) (base : Reg) (offset' : κ → ℕ) (base' temp : Reg) (fs : List (ι × κ)) :
    List Instr :=
  fs.flatMap fun f => [.lw temp (offset f.1) base, .sw temp (offset' f.2) base']

/-- **`copies`** between rooms that do not overlap. -/
theorem run_copies (temp : Reg) (h : Room top n) (h' : Room top' k)
    (hdisjoint : top.toNat + n ≤ top'.toNat ∨ top'.toNat + k ≤ top.toNat) (htemp : temp ≠ .zero)
    (hne : base ≠ temp) (hne' : base' ≠ temp) (hb : m.get base = top) (hb' : m.get base' = top')
    (ho : ∀ i, offset i + 4 ≤ n) (h4 : ∀ i, offset i % 4 = 0) (ho' : ∀ i, offset' i + 4 ≤ k)
    (h4' : ∀ i, offset' i % 4 = 0) (fs : List (ι × κ)) :
    (run (copies offset base offset' base' temp fs) m).Yields fun m' =>
      (∀ r, r ≠ temp → m'.get r = m.get r) ∧ m'.lo = m.lo ∧ m'.hi = m.hi ∧ m'.cp0 = m.cp0 ∧
      m'.pc = m.pc ∧
      m'.mem = stores offset' top'.toNat
        (fs.map fun f => (f.2, BitVec.ofNat 32 (m.mem.word (top.toNat + offset f.1)))) m.mem := by
  induction fs generalizing m with
  | nil => exact Outcome.yields_ok ⟨fun _ _ => rfl, rfl, rfl, rfl, rfl, rfl⟩
  | cons f fs ih =>
    let v := BitVec.ofNat 32 (m.mem.word (top.toNat + offset f.1))
    let m₁ := m.set temp v
    let m₂ := m₁.setMem (m₁.mem.setWord (top'.toNat + offset' f.2) (m₁.get temp).toNat)
    have hb₁ : m₁.get base = top := (Processor.get_set_of_ne hne m v).trans hb
    have hb₁' : m₁.get base' = top' := (Processor.get_set_of_ne hne' m v).trans hb'
    have hword : ∀ i, m₂.mem.word (top.toNat + offset i) = m.mem.word (top.toNat + offset i) := by
      intro i
      have hi := ho i
      have hf := ho' f.2
      exact Memory.word_congr fun x _ _ => Memory.setWord_of_outside (by omega)
    have hlt := ho f.1
    have hlt' := ho' f.2
    have hlw : exec (.lw temp (offset f.1) base) m = .ok m₁ := by
      simp only [exec, h.address hb (show offset f.1 < n by omega) (h4 f.1), Outcome.ok_bind,
        Outcome.pure_eq]
      rfl
    have hsw : exec (.sw temp (offset' f.2) base') m₁ = .ok m₂ := by
      simp only [exec, h'.address hb₁' (show offset' f.2 < k by omega) (h4' f.2), Outcome.ok_bind,
        Outcome.pure_eq]
      rfl
    show (run (.lw temp (offset f.1) base :: .sw temp (offset' f.2) base' ::
      copies offset base offset' base' temp fs) m).Yields _
    rw [run_cons, hlw, Outcome.ok_bind, run_cons, hsw, Outcome.ok_bind]
    refine (ih (m := m₂) hb₁ hb₁').mono ?_
    rintro m' ⟨hget, hlo, hhi, hcp0, hpc, hmem⟩
    refine ⟨fun r hr => (hget r hr).trans (Processor.get_set_of_ne hr m v), hlo, hhi, hcp0, hpc, ?_⟩
    simp only [hword] at hmem
    rw [hmem, List.map_cons, stores, stores, List.foldl_cons]
    have hv : m₁.get temp = v := Processor.get_set_self htemp m v
    show _ = stores offset' top'.toNat _ (m.mem.setWord (top'.toNat + offset' f.2) v.toNat)
    rw [← hv]
    rfl

end Copies

end Mips.Exception
