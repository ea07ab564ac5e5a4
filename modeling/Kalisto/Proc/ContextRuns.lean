import Kalisto.Proc.Context

/-!
# Runs of context switches

Threads with disjoint stacks, any code of the current one between two switches, and the calls of
`cpu_switch_context`.  The invariant is that the stack of every thread that is switched out has an
intact frame at the place its `stack_top` says.

* `Reachable.frames` — the invariant of every run;
* `context_switch_transparent` — a thread that is resumed finds the registers it had at its call, and a
  thread that is resumed for the first time starts at `thread_stub`.
-/

namespace Kalisto

open Mips

/-- Where the threads have their control blocks, their stacks and the fields `stack_top`. -/
structure ThreadMemory (T : Type) where
  thread : T → Word
  stackData : T → Word
  size : T → ℕ
  /-- the address of `stack_top` -/
  stackTop : T → Word

/-- The byte belongs to the stack of the thread or to its `stack_top`. -/
def ThreadMemory.Owns {T : Type} (L : ThreadMemory T) (t : T) (a : ℕ) : Prop :=
  ((L.stackData t).toNat ≤ a ∧ a < (L.stackData t).toNat + L.size t) ∨
    ((L.stackTop t).toNat ≤ a ∧ a < (L.stackTop t).toNat + 4)

/-- **Disjoint stacks.** -/
structure Stacks (T : Type) extends ThreadMemory T where
  data_aligned : ∀ t, (stackData t).toNat % 4 = 0
  top_aligned : ∀ t, (stackTop t).toNat % 4 = 0
  fits : ∀ t, (stackData t).toNat + size t ≤ 2 ^ 32
  disjoint : ∀ t u a, t ≠ u → toThreadMemory.Owns t a → ¬ toThreadMemory.Owns u a

/-- What a thread that does not run is waiting to continue with. -/
inductive Saved where
  /-- `thread_create` has made the initial context -/
  | created
  /-- the thread called `cpu_switch_context`, when the processor was in this state -/
  | switchedOut (m : Processor)

/-- The processor, the thread it runs, and the threads that wait. -/
structure ThreadSystem (T : Type) where
  cpu : Processor
  current : T
  saved : T → Option Saved

variable {T : Type} [DecidableEq T]

namespace ThreadSystem

/-- **A call of `cpu_switch_context`** by the current thread, as `thread_switch` makes it.  The thread
has room for the frame on its stack. -/
structure Calls (L : Stacks T) (s : ThreadSystem T) (u : T) (asid : BitVec 8) : Prop where
  old : s.cpu.get .a0 = L.stackTop s.current
  new : s.cpu.get .a1 = L.stackTop u
  asid : s.cpu.get .a2 = asid.setWidth 32
  aligned : (s.cpu.get .sp).toNat % 4 = 0
  low : (L.stackData s.current).toNat + contextSize ≤ (s.cpu.get .sp).toNat
  high : (s.cpu.get .sp).toNat ≤ (L.stackData s.current).toNat + L.size s.current
  clear : (L.stackTop s.current).toNat + 4 + contextSize ≤ (s.cpu.get .sp).toNat ∨
    (s.cpu.get .sp).toNat ≤ (L.stackTop s.current).toNat
  target : u = s.current ∨ (s.saved u).isSome = true

/-- **What happens.**  The current thread runs any code that leaves the stacks of the waiting threads
alone; a thread is created; the memory of a waiting thread is released; the current thread switches. -/
inductive Step (L : Stacks T) (threadStub : Word) : ThreadSystem T → ThreadSystem T → Prop
  | work {s : ThreadSystem T} {m : Processor} :
      (∀ u a, (s.saved u).isSome = true → L.Owns u a → m.mem a = s.cpu.mem a) →
      Step L threadStub s { s with cpu := m }
  | create {s : ThreadSystem T} {u : T} : u ≠ s.current → s.saved u = none →
      L.size u = threadStackSize → ((L.stackTop u).toNat + 4 ≤ (L.stackData u).toNat ∨
        (L.stackData u).toNat + L.size u ≤ (L.stackTop u).toNat) →
      Step L threadStub s { s with
        cpu := s.cpu.setMem (createContext threadStub (L.thread u) (L.stackData u) (L.stackTop u) s.cpu.mem)
        saved := Function.update s.saved u (some .created) }
  | release {s : ThreadSystem T} {u : T} :
      Step L threadStub s { s with saved := Function.update s.saved u none }
  | switch {s : ThreadSystem T} {u : T} {asid : BitVec 8} {m : Processor} : Calls L s u asid →
      run cpuSwitchContext s.cpu = .ok m →
      Step L threadStub s {
        cpu := m
        current := u
        saved := Function.update (Function.update s.saved s.current (some (.switchedOut s.cpu))) u none }

/-- The states of runs that start with one thread, in any state of the processor. -/
inductive Reachable (L : Stacks T) (threadStub : Word) : ThreadSystem T → Prop
  | init (m : Processor) (t : T) : Reachable L threadStub ⟨m, t, fun _ => none⟩
  | step {s s' : ThreadSystem T} : Reachable L threadStub s → Step L threadStub s s' →
      Reachable L threadStub s'

end ThreadSystem

/-! ### Frames -/

/-- **An intact frame** of the thread: its `stack_top` points to it, it lies on its stack, and it holds
these words. -/
structure FrameAt (L : Stacks T) (mem : Memory) (u : T) (top : Word)
    (ws : List (ContextField × Word)) : Prop where
  aligned : top.toNat % 4 = 0
  low : (L.stackData u).toNat ≤ top.toNat
  high : top.toNat + contextSize ≤ (L.stackData u).toNat + L.size u
  cell : mem.word (L.stackTop u).toNat = top.toNat
  words : ∀ f w, (f, w) ∈ ws → frameWord mem top f = w

/-- The address of the frame. -/
def Saved.top (stackData : Word) : Saved → Word
  | created => initialTop stackData
  | switchedOut m => m.get .sp - BitVec.ofNat 32 contextSize

/-- The words of the frame. -/
def Saved.words (threadStub thread : Word) : Saved → List (ContextField × Word)
  | created => initialWords threadStub thread
  | switchedOut m => savedWords m

variable {L : Stacks T} {threadStub : Word} {mem mem' : Memory} {t u : T} {top : Word}
  {ws : List (ContextField × Word)}

omit [DecidableEq T] in
theorem FrameAt.room (h : FrameAt L mem u top ws) : Room top contextSize :=
  ⟨h.aligned, h.high.trans (L.fits u)⟩

omit [DecidableEq T] in
/-- The frame depends on the stack of the thread and its `stack_top` only. -/
theorem FrameAt.congr (h : FrameAt L mem u top ws) (heq : ∀ a, L.Owns u a → mem' a = mem a) :
    FrameAt L mem' u top ws := by
  refine ⟨h.aligned, h.low, h.high, ?_, fun f w hw => ?_⟩
  · rw [← h.cell]
    exact Memory.word_congr fun x h1 h2 => heq x (Or.inr ⟨h1, h2⟩)
  · rw [← h.words f w hw, frameWord, frameWord]
    congr 1
    have hoff := regsOffset_le f
    have hlow := h.low
    have hhigh := h.high
    exact Memory.word_congr fun x h1 h2 => heq x (Or.inl (by omega))

omit [DecidableEq T] in
/-- Words that are stored into a frame, after the `stack_top` was. -/
theorem FrameAt.of_stores (haligned : top.toNat % 4 = 0) (hlow : (L.stackData u).toNat ≤ top.toNat)
    (hhigh : top.toNat + contextSize ≤ (L.stackData u).toNat + L.size u)
    (hclear : (L.stackTop u).toNat + 4 ≤ top.toNat ∨ top.toNat + contextSize ≤ (L.stackTop u).toNat)
    (hnd : (ws.map Prod.fst).Nodup) (mem : Memory) :
    FrameAt L (stores regsOffset top.toNat ws (mem.setWord (L.stackTop u).toNat top.toNat)) u top ws := by
  refine ⟨haligned, hlow, hhigh, ?_, fun f w hw => ?_⟩
  · have hout := Memory.word_congr (m := mem.setWord (L.stackTop u).toNat top.toNat)
      (a := (L.stackTop u).toNat) fun x h1 h2 =>
        have hx : x < top.toNat ∨ top.toNat + contextSize ≤ x := by omega
        stores_outside regsOffset_le hx ws _
    rw [hout, Memory.word_setWord_self, Nat.mod_eq_of_lt top.isLt]
  · exact stores_word haligned regsOffset_aligned regsOffset_injective hnd hw _

omit [DecidableEq T] in
/-- Such stores leave the memory of the other threads alone. -/
theorem stores_not_owned (hlow : (L.stackData u).toNat ≤ top.toNat)
    (hhigh : top.toNat + contextSize ≤ (L.stackData u).toNat + L.size u) (htu : t ≠ u) {a : ℕ}
    (ha : L.Owns t a) (mem : Memory) :
    stores regsOffset top.toNat ws (mem.setWord (L.stackTop u).toNat top.toNat) a = mem a := by
  have hnot := L.disjoint t u a htu ha
  simp only [ThreadMemory.Owns, not_or, not_and, not_lt] at hnot
  rw [stores_outside (n := contextSize) regsOffset_le (by omega), Memory.setWord_of_outside (by omega)]

/-! ### The invariant -/

namespace ThreadSystem

variable {s s' : ThreadSystem T} {asid : BitVec 8}

/-- The frames of the threads that wait are intact, and the current thread has none. -/
structure Frames (L : Stacks T) (threadStub : Word) (s : ThreadSystem T) : Prop where
  running : s.saved s.current = none
  frame : ∀ u c, s.saved u = some c →
    FrameAt L s.cpu.mem u (c.top (L.stackData u)) (c.words threadStub (L.thread u))

/-- The frame that a call of `cpu_switch_context` makes. -/
def callTop (s : ThreadSystem T) : Word := s.cpu.get .sp - BitVec.ofNat 32 contextSize

omit [DecidableEq T] in
theorem Calls.sp_eq (_ : Calls L s u asid) :
    s.cpu.get .sp = s.callTop + BitVec.ofNat 32 contextSize := by
  rw [callTop, BitVec.sub_add_cancel]

omit [DecidableEq T] in
theorem Calls.top_toNat (h : Calls L s u asid) :
    s.callTop.toNat + contextSize = (s.cpu.get .sp).toNat := by
  have hlow := h.low
  have hsp := (s.cpu.get .sp).isLt
  have hsize : contextSize = 156 := rfl
  rw [hsize] at hlow ⊢
  rw [callTop, hsize, BitVec.toNat_sub_of_le]
  · simp
    omega
  · rw [BitVec.le_def]
    simp
    omega

omit [DecidableEq T] in
/-- The old thread has an intact frame after its registers were stored. -/
theorem Calls.frame_old (h : Calls L s u asid) :
    FrameAt L (savedMemory s.cpu s.callTop) s.current s.callTop (savedWords s.cpu) := by
  have htop := h.top_toNat
  have haligned := h.aligned
  have hlow := h.low
  have hhigh := h.high
  have hclear := h.clear
  have hsize : contextSize % 4 = 0 := rfl
  rw [savedMemory, h.old]
  exact .of_stores (by omega) (by omega) (by omega) (by omega) (savedWords_nodup _) _

omit [DecidableEq T] in
/-- The frames of the others are not touched. -/
theorem Calls.frame_other (h : Calls L s u asid) (hs : s.Frames L threadStub) {c : Saved} {v : T}
    (hv : v ≠ s.current) (hc : s.saved v = some c) :
    FrameAt L (savedMemory s.cpu s.callTop) v (c.top (L.stackData v))
      (c.words threadStub (L.thread v)) := by
  have htop := h.top_toNat
  have hlow := h.low
  have hhigh := h.high
  refine (hs.frame v c hc).congr fun a ha => ?_
  rw [savedMemory, h.old]
  exact stores_not_owned (by omega) (by omega) hv ha _

/-- What the new thread continues with. -/
def Continues (s : ThreadSystem T) (u : T) (c : Saved) : Prop :=
  (u = s.current ∧ c = .switchedOut s.cpu) ∨ (u ≠ s.current ∧ s.saved u = some c)

omit [DecidableEq T] in
theorem Calls.frame_new (h : Calls L s u asid) (hs : s.Frames L threadStub) {c : Saved}
    (hc : s.Continues u c) : FrameAt L (savedMemory s.cpu s.callTop) u (c.top (L.stackData u))
      (c.words threadStub (L.thread u)) := by
  rcases hc with ⟨rfl, rfl⟩ | ⟨hne, hc⟩
  · exact h.frame_old
  · exact h.frame_other hs hne hc

omit [DecidableEq T] in
theorem Calls.continues (h : Calls L s u asid) : ∃ c, s.Continues u c := by
  by_cases hu : u = s.current
  · exact ⟨_, Or.inl ⟨hu, rfl⟩⟩
  · obtain ⟨c, hc⟩ := Option.isSome_iff_exists.mp (h.target.resolve_left hu)
    exact ⟨c, Or.inr ⟨hu, hc⟩⟩

/-- What the new thread finds, from its frame. -/
structure Resumes (s : ThreadSystem T) (asid : BitVec 8) (top : Word)
    (ws : List (ContextField × Word)) (m : Processor) : Prop where
  mem : m.mem = savedMemory s.cpu s.callTop
  regs : ∀ r w, (.reg r, w) ∈ ws → r ≠ .k0 → r ≠ .k1 → r ≠ .sp → r ≠ .zero → m.get r = w
  sp : m.get .sp = top + BitVec.ofNat 32 contextSize
  lo : ∀ w, (.lo, w) ∈ ws → m.lo = w
  hi : ∀ w, (.hi, w) ∈ ws → m.hi = w
  status : ∀ w, (.status, w) ∈ ws → m.cp0 .status = w
  entryhi : m.cp0 .entryhi = (s.cpu.cp0 .entryhi &&& ~~~cp0EntryhiAsidMask) ||| asid.setWidth 32
  pc : ∀ w, (.reg .ra, w) ∈ ws → m.pc = w

omit [DecidableEq T] in
/-- **The call** ends in the new thread. -/
theorem Calls.resumes (h : Calls L s u asid) (hs : s.Frames L threadStub) {c : Saved}
    (hc : s.Continues u c) : (run cpuSwitchContext s.cpu).Yields
      (s.Resumes asid (c.top (L.stackData u)) (c.words threadStub (L.thread u))) := by
  have hnew := h.frame_new hs hc
  have hold : Room s.callTop contextSize := h.frame_old.room
  have ha0 : (s.cpu.get .a0).toNat % 4 = 0 := h.old ▸ L.top_aligned s.current
  have ha1 : (s.cpu.get .a1).toNat % 4 = 0 := h.new ▸ L.top_aligned u
  refine (run_cpuSwitchContext h.sp_eq hold ha0 ha1 (h.new ▸ hnew.cell) hnew.room).mono ?_
  rintro m ⟨hmem, hregs, hsp, hlo, hhi, hst, hent, hpc⟩
  refine ⟨hmem, fun r w hw h0 h1 h2 hz => ?_, hsp, fun w hw => ?_, fun w hw => ?_, fun w hw => ?_,
    h.asid ▸ hent, fun w hw => ?_⟩
  · rw [hregs r h0 h1 h2 hz, hnew.words _ w hw]
  · rw [hlo, hnew.words _ w hw]
  · rw [hhi, hnew.words _ w hw]
  · rw [hst, hnew.words _ w hw]
  · rw [hpc, hnew.words _ w hw]

omit [DecidableEq T] in
/-- A new thread has an intact frame. -/
theorem frame_created (hsize : L.size u = threadStackSize)
    (hclear : (L.stackTop u).toNat + 4 ≤ (L.stackData u).toNat ∨
      (L.stackData u).toNat + L.size u ≤ (L.stackTop u).toNat) (mem : Memory) :
    FrameAt L (createContext threadStub (L.thread u) (L.stackData u) (L.stackTop u) mem) u
        (initialTop (L.stackData u)) (initialWords threadStub (L.thread u)) ∧
      ∀ t a, t ≠ u → L.Owns t a →
        createContext threadStub (L.thread u) (L.stackData u) (L.stackTop u) mem a = mem a := by
  have hfits := L.fits u
  have haligned := L.data_aligned u
  rw [hsize, show threadStackSize = 4096 from rfl] at hfits hclear
  have htop : (initialTop (L.stackData u)).toNat = (L.stackData u).toNat + 3908 := by
    rw [initialTop, BitVec.toNat_add, Nat.mod_eq_of_lt] <;>
      rw [show (BitVec.ofNat 32 (threadStackSize - contextSize - abiStackFrame)).toNat = 3908 from rfl]
    omega
  have hlow : (L.stackData u).toNat ≤ (initialTop (L.stackData u)).toNat := by omega
  have hhigh : (initialTop (L.stackData u)).toNat + contextSize ≤
      (L.stackData u).toNat + L.size u := by
    rw [htop, hsize, show contextSize = 156 from rfl, show threadStackSize = 4096 from rfl]
    omega
  refine ⟨.of_stores (by omega) hlow hhigh ?_ (initialWords_nodup _ _) mem, fun t a htu ha =>
    stores_not_owned hlow hhigh htu ha mem⟩
  rw [htop, show contextSize = 156 from rfl]
  omega

/-- **Every step keeps the frames.** -/
theorem Frames.step (h : s.Frames L threadStub) (hstep : Step L threadStub s s') :
    s'.Frames L threadStub := by
  cases hstep with
  | work hkeep =>
    refine ⟨h.running, fun u c hc => (h.frame u c hc).congr fun a ha => hkeep u a ?_ ha⟩
    rw [hc]
    rfl
  | @create u hu hnone hsize hclear =>
    obtain ⟨hframe, hkeep⟩ := @frame_created T L threadStub u hsize hclear s.cpu.mem
    refine ⟨?_, fun v c hc => ?_⟩
    · exact (Function.update_of_ne hu.symm _ _).trans h.running
    · simp only [Function.update_apply] at hc
      split at hc
      · next hvu =>
        subst hvu
        obtain rfl : Saved.created = c := Option.some.inj hc
        exact hframe
      · next hvu => exact (h.frame v c hc).congr fun a ha => hkeep v a hvu ha
  | @release u =>
    refine ⟨?_, fun v c hc => ?_⟩
    · simp only [Function.update_apply]
      split
      · rfl
      · exact h.running
    · simp only [Function.update_apply] at hc
      split at hc
      · cases hc
      · exact h.frame v c hc
  | @switch u asid m hcall hrun =>
    obtain ⟨c₀, hc₀⟩ := hcall.continues
    obtain ⟨m', hm', hres⟩ := hcall.resumes h hc₀
    obtain rfl : m' = m := Outcome.ok.inj (hm'.symm.trans hrun)
    refine ⟨Function.update_self _ _ _, fun v c hc => ?_⟩
    simp only [Function.update_apply] at hc
    rw [hres.mem]
    split at hc
    · cases hc
    · split at hc
      · next hv =>
        obtain rfl : Saved.switchedOut s.cpu = c := Option.some.inj hc
        rw [hv]
        exact hcall.frame_old
      · next hv => exact hcall.frame_other h hv hc

/-- **The invariant of every run.** -/
theorem Reachable.frames (h : Reachable L threadStub s) : s.Frames L threadStub := by
  induction h with
  | init m t => exact ⟨rfl, fun u c hc => by cases hc⟩
  | step _ hstep ih => exact ih.step hstep

/-! ### Transparency -/

/-- The bits of EntryHi that the switch writes. -/
theorem asid_of_entryhi (e : Word) (asid : BitVec 8) :
    ((e &&& ~~~cp0EntryhiAsidMask) ||| asid.setWidth 32) &&& cp0EntryhiAsidMask = asid.setWidth 32 := by
  have hmask : cp0EntryhiAsidMask = (BitVec.allOnes 8).setWidth 32 := by decide
  rw [hmask]
  apply BitVec.eq_of_getLsbD_eq
  intro i hi
  simp only [BitVec.getLsbD_and, BitVec.getLsbD_or, BitVec.getLsbD_not, BitVec.getLsbD_setWidth,
    BitVec.getLsbD_allOnes]
  by_cases h8 : i < 8
  · simp [h8, hi]
  · simp [h8, BitVec.getLsbD_of_ge asid i (by omega)]

/-- **The switch is transparent.**  In every run, when the current thread calls `cpu_switch_context`
to switch to `u`, the call ends and:

* EntryHi has the address space identifier that was passed;
* when `u` was switched out, or is the current thread itself, all general registers but `k0` and `k1`,
  LO, HI and Status are as they were at the call of `u`, and the processor is at its return address;
* when `u` is new, the processor is at `thread_stub` with the thread in `a0`, the stack pointer is just
  above the initial context, and interrupts are enabled. -/
theorem context_switch_transparent (h : Reachable L threadStub s) (hcall : Calls L s u asid) :
    (run cpuSwitchContext s.cpu).Yields fun m =>
      m.cp0 .entryhi &&& cp0EntryhiAsidMask = asid.setWidth 32 ∧
      (∀ m₀, (u = s.current ∧ m₀ = s.cpu ∨ s.saved u = some (.switchedOut m₀)) →
        (∀ r, r ≠ .k0 → r ≠ .k1 → m.get r = m₀.get r) ∧ m.lo = m₀.lo ∧ m.hi = m₀.hi ∧
          m.cp0 .status = m₀.cp0 .status ∧ m.pc = m₀.get .ra) ∧
      (s.saved u = some .created →
        m.pc = threadStub ∧ m.get .a0 = L.thread u ∧
          m.get .sp = initialTop (L.stackData u) + BitVec.ofNat 32 contextSize ∧
          m.get .gp = inKseg0 0 ∧ m.cp0 .status = cp0StatusIeMask ||| cp0StatusImMask) := by
  have hs := h.frames
  obtain ⟨c, hc⟩ := hcall.continues
  refine (hcall.resumes hs hc).mono fun m hm => ⟨?_, fun m₀ hm₀ => ?_, fun hnew => ?_⟩
  · rw [hm.entryhi, asid_of_entryhi]
  · obtain rfl : c = .switchedOut m₀ := by
      rcases hc with ⟨hu, rfl⟩ | ⟨hu, hc⟩
      · rcases hm₀ with ⟨-, rfl⟩ | hm₀
        · rfl
        · rw [hu, hs.running] at hm₀
          cases hm₀
      · rcases hm₀ with ⟨hu', -⟩ | hm₀
        · exact absurd hu' hu
        · exact Option.some.inj (hc.symm.trans hm₀)
    have hmem : ∀ r, r ≠ .k0 → r ≠ .k1 → r ≠ .sp → (.reg r, m₀.get r) ∈ savedWords m₀ := by
      intro r h0 h1 h2
      exact List.mem_append_left _ (List.mem_map.mpr ⟨r, mem_saveOrder h0 h1 h2, rfl⟩)
    refine ⟨fun r h0 h1 => ?_, hm.lo _ (by simp [Saved.words, savedWords]),
      hm.hi _ (by simp [Saved.words, savedWords]), hm.status _ (by simp [Saved.words, savedWords]),
      hm.pc _ (hmem .ra (by decide) (by decide) (by decide))⟩
    by_cases hz : r = .zero
    · simp [hz]
    · by_cases hsp : r = .sp
      · rw [hsp, hm.sp, Saved.top, BitVec.sub_add_cancel]
      · exact hm.regs r _ (hmem r h0 h1 hsp) h0 h1 hsp hz
  · obtain rfl : c = .created := by
      rcases hc with ⟨hu, -⟩ | ⟨-, hc⟩
      · rw [hu, hs.running] at hnew
        cases hnew
      · exact Option.some.inj (hc.symm.trans hnew)
    have hmem : ∀ f w, (f, w) ∈ initialWords threadStub (L.thread u) →
        (f, w) ∈ Saved.words threadStub (L.thread u) .created := fun _ _ hw => hw
    exact ⟨hm.pc _ (hmem _ _ (by simp [initialWords])),
      hm.regs .a0 _ (hmem _ _ (by simp [initialWords])) (by decide) (by decide) (by decide) (by decide),
      hm.sp,
      hm.regs .gp _ (hmem _ _ (by simp [initialWords])) (by decide) (by decide) (by decide) (by decide),
      hm.status _ (hmem _ _ (by simp [initialWords]))⟩

/-- Two threads with stacks of a page. -/
def twoStacks : Stacks Bool where
  thread := fun t => if t then 0x2000 else 0x1000
  stackData := fun t => if t then 0x20000 else 0x10000
  size := fun _ => threadStackSize
  stackTop := fun t => if t then 0x2010 else 0x1010
  data_aligned := by decide
  top_aligned := by decide
  fits := by decide
  disjoint := by
    intro t u a htu
    cases t <;> cases u <;> simp [ThreadMemory.Owns, threadStackSize] at htu ⊢ <;> omega

/-- The first thread calls `cpu_switch_context` with the identifier 7. -/
def callingCpu : Processor where
  regs
    | .a0 => 0x1010
    | .a1 => 0x2010
    | .a2 => 7
    | .s0 => 0x12345678
    | .sp => 0x11000
    | .ra => 0x80005000
    | _ => 0
  lo := 3
  hi := 4
  cp0 := fun _ => 0
  pc := 0
  mem := fun _ => 0

/-- The second thread was created. -/
def callingSystem : ThreadSystem Bool where
  cpu := callingCpu.setMem (createContext 0x80001000 0x2000 0x20000 0x2010 callingCpu.mem)
  current := false
  saved := Function.update (fun _ => none) true (some .created)

/-- The second thread has used all registers, and calls `cpu_switch_context` with the identifier 5. -/
def callingBack (m : Processor) : Processor where
  regs
    | .a0 => 0x2010
    | .a1 => 0x1010
    | .a2 => 5
    | .sp => 0x20FE0
    | _ => 0xFFFFFFFF
  lo := 0xFFFFFFFF
  hi := 0xFFFFFFFF
  cp0 := m.cp0
  pc := 0
  mem := m.mem

/-- The second thread runs. -/
def switchedSystem (m : Processor) : ThreadSystem Bool where
  cpu := m
  current := true
  saved := Function.update (Function.update callingSystem.saved false
    (some (.switchedOut callingSystem.cpu))) true none

theorem callingBack_calls (m : Processor) :
    Calls twoStacks { switchedSystem m with cpu := callingBack m } false 5 := by
  have hsp : (callingBack m).get .sp = 0x20FE0 := rfl
  refine ⟨rfl, rfl, rfl, ?_, ?_, ?_, ?_, Or.inr rfl⟩
  all_goals
    simp only [hsp, switchedSystem]
    decide

/-- **There and back.**  The new thread starts at `thread_stub`; when it switches back, the first thread finds
its registers. -/
theorem context_switch_transparent_twoSwitches : ∃ m m', run cpuSwitchContext callingSystem.cpu = .ok m ∧
    m.cp0 .entryhi &&& cp0EntryhiAsidMask = 7 ∧ m.pc = 0x80001000 ∧ m.get .a0 = 0x2000 ∧
    run cpuSwitchContext (callingBack m) = .ok m' ∧ m'.cp0 .entryhi &&& cp0EntryhiAsidMask = 5 ∧
    m'.get .s0 = 0x12345678 ∧ m'.get .sp = 0x11000 ∧ m'.lo = 3 ∧ m'.hi = 4 ∧ m'.cp0 .status = 0 ∧
    m'.pc = 0x80005000 := by
  have hinit : Reachable twoStacks 0x80001000 ⟨callingCpu, false, fun _ => none⟩ := .init _ _
  have hreach : Reachable twoStacks 0x80001000 callingSystem :=
    hinit.step (.create (u := true) (by decide) rfl rfl (by decide))
  have hcall : Calls twoStacks callingSystem true 7 :=
    ⟨rfl, rfl, by decide, by decide, by decide, by decide, by decide, Or.inr rfl⟩
  obtain ⟨m, hrun, hent, -, hnew⟩ := context_switch_transparent hreach hcall
  obtain ⟨hpc, ha0, -⟩ := hnew rfl
  have hreach₁ : Reachable twoStacks 0x80001000 (switchedSystem m) := hreach.step (.switch hcall hrun)
  have hreach₂ : Reachable twoStacks 0x80001000 { switchedSystem m with cpu := callingBack m } :=
    hreach₁.step (.work fun _ _ _ _ => rfl)
  obtain ⟨m', hrun', hent', hold, -⟩ := context_switch_transparent hreach₂ (callingBack_calls m)
  obtain ⟨hget, hlo, hhi, hstatus, hpc'⟩ := hold callingSystem.cpu (Or.inr rfl)
  exact ⟨m, m', hrun, hent, hpc, ha0, hrun', hent', hget .s0 (by decide) (by decide),
    hget .sp (by decide) (by decide), hlo, hhi, hstatus, hpc'⟩

end ThreadSystem

end Kalisto
