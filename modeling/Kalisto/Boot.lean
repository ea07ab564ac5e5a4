import Kalisto.Adt.Atomic

/-!
# The start of the processors

`bsp_start` and `ap_start` of `main.c`.  The bootstrap processor initialises the kernel and adds 1 to
`cpu_ready`; processor `k` spins until `cpu_ready` is at least `k`, initialises its own part and adds 1.
The initialisations allocate memory without locks, so no two of them may overlap.

The processors are clients of the atomic variable, whose operations run instruction by instruction.

* `boot_inOrder` — the initialisations happen one at a time, in the order of the processor numbers, and
  the test of the next processor succeeds once its predecessor is done.
-/

namespace Kalisto

open LoadLinked Linearizability

/-- Where a processor is in `bsp_start` or `ap_start`. -/
inductive BootPhase where
  /-- In the loop that waits for `cpu_ready`. -/
  | wait
  /-- In its initialisation. -/
  | init
  /-- In `atomic_add (&cpu_ready, 1)`. -/
  | publish
  /-- In `thread_switch`, and later in threads. -/
  | run
  deriving DecidableEq, Repr

variable {n : ℕ}

/-- At reset: processor 0 starts in `bsp_start`, the others in `ap_start`. -/
def bootPhases (k : Fin n) : BootPhase := if k.val = 0 then .init else .wait

/-- `atomic_get (&cpu_ready) < (native_t) cpuid ()`. -/
def notReady (cpuReady : Word) (cpuid : Fin n) : Bool := cpuReady.slt (BitVec.ofNat 32 cpuid)

/-- What a processor does at the calls and returns of its operations on `cpu_ready`. -/
def bootReact : Event (Fin n) (AtomicOp Unit) (Option Word) → (Fin n → BootPhase) →
    Option (Fin n → BootPhase)
  | .call _ k op, φ =>
    match φ k, op with
    | .wait, .get () => some φ
    | .init, .add () v => if v = 1 then some (Function.update φ k .publish) else none
    | _, _ => none
  | .ret _ k r, φ =>
    match φ k, r with
    | .wait, some v => some (if notReady v k then φ else Function.update φ k .init)
    | .publish, _ => some (Function.update φ k .run)
    | _, _ => none

/-- **Runs of the processors from reset**; the state is that of the machine and the phase of each
processor. -/
def BootRun (link : Fin n → Option Unit) :
    List (Event (Fin n) (AtomicOp Unit) (Option Word)) →
      Machine (Fin n) Unit Operand (AtomicOp Unit) × (Fin n → BootPhase) → Prop :=
  Run (withClients (Machine.step (atomicCode Unit)) bootReact) (Machine.start (fun _ => 0) link, bootPhases)

/-! ### The invariant -/

/-- Where processor `k` can be when `r` processors have added to `cpu_ready`. -/
inductive BootOk (r k : ℕ) : Activity (AtomicOp Unit) (Option Word) → BootPhase → Prop
  | idle (hr : r ≤ k) : BootOk r k .idle .wait
  | get (hr : r ≤ k) (i : ℕ) : BootOk r k (.called i (.get ())) .wait
  /-- An old value of `cpu_ready`. -/
  | got (hr : r ≤ k) (i v : ℕ) (hv : v ≤ r) : BootOk r k (.done i (some (BitVec.ofNat 32 v))) .wait
  | init (hr : r = k) : BootOk r k .idle .init
  | add (hr : r = k) (i : ℕ) : BootOk r k (.called i (.add () 1)) .publish
  | added (hr : k < r) (i : ℕ) (v : Option Word) : BootOk r k (.done i v) .publish
  | run (hr : k < r) : BootOk r k .idle .run

/-- The invariant, for the object whose calls take effect in one step. -/
structure BootInv (r : ℕ) (a : Atomic (Fin n) (Unit → Word) (AtomicOp Unit) (Option Word))
    (φ : Fin n → BootPhase) : Prop where
  le : r ≤ n
  obj : a.obj () = BitVec.ofNat 32 r
  calls : ∀ k, BootOk r k.val (a.activity k) (φ k)

variable {r k : ℕ} {x : Activity (AtomicOp Unit) (Option Word)} {ph : BootPhase}
  {a : Atomic (Fin n) (Unit → Word) (AtomicOp Unit) (Option Word)} {φ φ' : Fin n → BootPhase}

/-- The other processors, when processor `r` adds to `cpu_ready`. -/
theorem BootOk.next (h : BootOk r k x ph) (hk : k ≠ r) : BootOk (r + 1) k x ph := by
  cases h with
  | idle hr => exact .idle (by omega)
  | get hr i => exact .get (by omega) i
  | got hr i v hv => exact .got (by omega) i v (by omega)
  | init hr => exact absurd hr.symm hk
  | add hr i => exact absurd hr.symm hk
  | added hr i v => exact .added (by omega) i v
  | run hr => exact .run (by omega)

theorem bootInv_start : BootInv 0 (Atomic.start fun _ => 0) (bootPhases (n := n)) where
  le := Nat.zero_le n
  obj := rfl
  calls := by
    intro k
    rw [bootPhases]
    split
    · next h0 => exact .init h0.symm
    · exact .idle (Nat.zero_le _)

/-- A processor goes on, the others stay where they are. -/
theorem BootInv.goto (hi : BootInv r a φ) {p : Fin n} {x : Activity (AtomicOp Unit) (Option Word)}
    (hp : BootOk r p.val x (φ' p)) (hφ : ∀ q, q ≠ p → φ' q = φ q) (next : ℕ) :
    BootInv r { a.goto p x with next := next } φ' where
  le := hi.le
  obj := hi.obj
  calls := by
    intro q
    by_cases hq : q = p
    · subst hq
      simpa [Atomic.goto] using hp
    · simpa [Atomic.goto, hq, hφ q hq] using hi.calls q

theorem BootInv.call (hi : BootInv r a φ) {p : Fin n} {op : AtomicOp Unit} (hact : a.activity p = .idle)
    (hreact : bootReact (.call a.next p op) φ = some φ') :
    BootInv r { a.goto p (.called a.next op) with next := a.next + 1 } φ' := by
  have hp := hi.calls p
  rw [hact] at hp
  obtain ⟨ph, hph⟩ : ∃ ph, φ p = ph := ⟨_, rfl⟩
  rw [hph] at hp
  cases hp with
  | idle hr =>
    cases op with
    | get u =>
      obtain rfl : φ = φ' := by simpa [bootReact, hph] using hreact
      exact hi.goto (hph ▸ .get hr a.next) (fun _ _ => rfl) _
    | _ => simp [bootReact, hph] at hreact
  | init hr =>
    cases op with
    | add u v =>
      obtain ⟨rfl, rfl⟩ : v = 1 ∧ Function.update φ p .publish = φ' := by simpa [bootReact, hph] using hreact
      refine hi.goto ?_ (fun q hq => Function.update_of_ne hq _ _) _
      rw [Function.update_self]
      exact .add hr a.next
    | _ => simp [bootReact, hph] at hreact
  | run hr => simp [bootReact, hph] at hreact

theorem BootInv.commit (hi : BootInv r a φ) {p : Fin n} {i : ℕ} {op : AtomicOp Unit}
    (hact : a.activity p = .called i op) :
    ∃ r', r ≤ r' ∧ BootInv r' { a.goto p (.done i (op.applyTo a.obj).2) with obj := (op.applyTo a.obj).1 } φ := by
  have hp := hi.calls p
  rw [hact] at hp
  obtain ⟨ph, hph⟩ : ∃ ph, φ p = ph := ⟨_, rfl⟩
  rw [hph] at hp
  cases hp with
  | get hr =>
    refine ⟨r, le_rfl, hi.le, by simp [AtomicOp.applyTo, AtomicOp.apply, AtomicOp.var, hi.obj], ?_⟩
    have hgot : BootOk r p.val (.done i (AtomicOp.applyTo (.get ()) a.obj).2) (φ p) := by
      simpa [hph, AtomicOp.applyTo, AtomicOp.apply, AtomicOp.var, hi.obj] using BootOk.got hr i r le_rfl
    have hok := hi.goto hgot (fun _ _ => rfl) a.next
    exact hok.calls
  | add hr =>
    -- the next processor may start
    refine ⟨r + 1, Nat.le_succ r, by omega, ?_, ?_⟩
    · simp [AtomicOp.applyTo, AtomicOp.apply, AtomicOp.var, hi.obj, BitVec.ofNat_add]
    · intro q
      by_cases hq : q = p
      · subst hq
        simpa [Atomic.goto, hph] using BootOk.added (by omega : q.val < r + 1) i _
      · have hne : q.val ≠ r := fun h => hq (Fin.ext (h.trans hr))
        simpa [Atomic.goto, hq] using (hi.calls q).next hne

theorem toInt_ofNat_small {v : ℕ} (hv : v < 2 ^ 31) : (BitVec.ofNat 32 v).toInt = v := by
  have hval : (BitVec.ofNat 32 v).toNat = v := by
    rw [BitVec.toNat_ofNat]
    exact Nat.mod_eq_of_lt (by omega)
  rw [BitVec.toInt_eq_toNat_of_lt (by omega), hval]

theorem notReady_ofNat {v : ℕ} (hv : v < 2 ^ 31) {k : Fin n} (hk : k.val < 2 ^ 31) :
    notReady (BitVec.ofNat 32 v) k = decide (v < k.val) := by
  rw [notReady, BitVec.slt_eq_decide, toInt_ofNat_small hv, toInt_ofNat_small hk]
  simp

theorem BootInv.ret (hn : n ≤ maxCpu) (hi : BootInv r a φ) {p : Fin n} {i : ℕ} {v : Option Word}
    (hact : a.activity p = .done i v) (hreact : bootReact (.ret i p v) φ = some φ') :
    BootInv r (a.goto p .idle) φ' := by
  have hp := hi.calls p
  rw [hact] at hp
  obtain ⟨ph, hph⟩ : ∃ ph, φ p = ph := ⟨_, rfl⟩
  rw [hph] at hp
  rw [maxCpu] at hn
  cases hp with
  | got hr i v hv =>
    have hpn := p.isLt
    have hrn := hi.le
    simp only [bootReact, hph, notReady_ofNat (show v < 2 ^ 31 by omega) (show p.val < 2 ^ 31 by omega),
      decide_eq_true_eq, Option.some.injEq] at hreact
    by_cases hvp : v < p.val
    · rw [if_pos hvp] at hreact
      subst hreact
      exact hi.goto (hph ▸ .idle hr) (fun _ _ => rfl) a.next
    · -- the test succeeds: all processors before have added
      rw [if_neg hvp] at hreact
      subst hreact
      refine hi.goto ?_ (fun q hq => Function.update_of_ne hq _ _) a.next
      rw [Function.update_self]
      exact .init (by omega)
  | added hr i v =>
    obtain rfl : Function.update φ p .run = φ' := by simpa [bootReact, hph] using hreact
    refine hi.goto ?_ (fun q hq => Function.update_of_ne hq _ _) a.next
    rw [Function.update_self]
    exact .run hr

/-- The invariant holds in every run. -/
theorem bootInv_of_run (hn : n ≤ maxCpu) {h : List (Event (Fin n) (AtomicOp Unit) (Option Word))}
    {s : Atomic (Fin n) (Unit → Word) (AtomicOp Unit) (Option Word) × (Fin n → BootPhase)}
    (hrun : Run (withClients (Atomic.step AtomicOp.applyTo) bootReact)
      (Atomic.start fun _ => 0, bootPhases) h s) : ∃ r, BootInv r s.1 s.2 := by
  induction hrun with
  | refl => exact ⟨0, bootInv_start⟩
  | @tail h e s s' c _ hstep ih =>
    obtain ⟨r, hi⟩ := ih
    obtain ⟨a, φ⟩ := s
    obtain ⟨a', φ'⟩ := s'
    obtain ⟨hstep, hreact⟩ := withClients_eq_some.mp hstep
    obtain ⟨p, op, hact, rfl, rfl⟩ | ⟨p, i, op, hact, rfl, rfl⟩ | ⟨p, i, v, hact, rfl, rfl⟩ :=
      Atomic.step_cases hstep
    · exact ⟨r, hi.call hact (by simpa using hreact)⟩
    · obtain rfl : φ = φ' := by simpa using hreact
      obtain ⟨r', _, hi'⟩ := hi.commit hact
      exact ⟨r', hi'⟩
    · exact ⟨r, hi.ret hn hact (by simpa using hreact)⟩

/-- A processor that has left its loop. -/
theorem BootOk.le_of_ne_wait (h : BootOk r k x ph) (hne : ph ≠ .wait) : k ≤ r := by
  cases h with
  | idle hr => exact absurd rfl hne
  | get hr i => exact absurd rfl hne
  | got hr i v hv => exact absurd rfl hne
  | init hr => exact hr.ge
  | add hr i => exact hr.ge
  | added hr i v => exact hr.le
  | run hr => exact hr.le

/-- A processor that is not the next one. -/
theorem BootOk.past (h : BootOk r k x ph) (hk : k < r) : ph = .publish ∨ ph = .run := by
  cases h with
  | idle hr => omega
  | get hr i => omega
  | got hr i v hv => omega
  | init hr => omega
  | add hr i => omega
  | added hr i v => exact .inl rfl
  | run hr => exact .inr rfl

theorem BootOk.lt_of_run (h : BootOk r k x .run) : k < r := by
  cases h with
  | run hr => exact hr

/-- **The processors initialise one at a time, in the order of their numbers.**  When a processor has left
its loop, all processors before it are past their initialisation; and once a processor runs threads,
`cpu_ready` has a value that lets the next one go on. -/
theorem boot_inOrder (hn : n ≤ maxCpu) {link : Fin n → Option Unit}
    {h : List (Event (Fin n) (AtomicOp Unit) (Option Word))} {m : Machine (Fin n) Unit Operand (AtomicOp Unit)}
    {φ : Fin n → BootPhase} (hrun : BootRun link h (m, φ)) :
    (∀ j k, j < k → φ k ≠ .wait → φ j = .publish ∨ φ j = .run) ∧
      (∀ j k, φ j = .init → φ k = .init → j = k) ∧
      ∀ j k : Fin n, j.val + 1 = k.val → φ j = .run → notReady (m.mem ()) k = false := by
  obtain ⟨a, hR, ha⟩ := (atomicOutline Unit).simulates_withClients hrun
  rw [onWord_atomicCode] at ha
  obtain ⟨r, hi⟩ := bootInv_of_run hn ha
  have hfirst : ∀ j k, j < k → φ k ≠ .wait → φ j = .publish ∨ φ j = .run := fun j k hjk hk =>
    (hi.calls j).past (lt_of_lt_of_le hjk ((hi.calls k).le_of_ne_wait hk))
  refine ⟨hfirst, ?_, ?_⟩
  · intro j k hj hk
    rcases lt_trichotomy j k with hlt | heq | hlt
    · have := hfirst j k hlt (by simp [hk])
      simp [hj] at this
    · exact heq
    · have := hfirst k j hlt (by simp [hj])
      simp [hk] at this
  · intro j k hjk hj
    have hlt := hi.calls j
    simp only [hj] at hlt
    have hjr := hlt.lt_of_run
    have hrn := hi.le
    have hkn := k.isLt
    rw [maxCpu] at hn
    rw [← hR.obj, hi.obj, notReady_ofNat (by omega) (by omega)]
    simp only [decide_eq_false_iff_not, not_lt]
    omega

/-- The processor that starts first. -/
def bsp : Fin 2 := ⟨0, Nat.two_pos⟩

/-- The other processor. -/
def ap : Fin 2 := ⟨1, Nat.one_lt_two⟩

/-- The other processor looks too early once; then the first one is done, and it starts. -/
def twoProcessors : List (Choice (Fin 2) Operand (AtomicOp Unit)) :=
  List.flatten [[.call ap (.get ()) fun _ => 0, .exec ap, .ret ap, .call bsp (.add () 1) fun _ => 0],
    List.replicate 7 (.exec bsp), [.ret bsp, .call ap (.get ()) fun _ => 0, .exec ap, .ret ap]]

theorem boot_inOrder_twoProcessors : ∃ h m, ∃ φ : Fin 2 → BootPhase,
    BootRun (fun _ => none) h (m, φ) ∧ φ 1 = .init ∧ (φ 0 = .publish ∨ φ 0 = .run) := by
  have hplay : (play (withClients (Machine.step (atomicCode Unit)) bootReact) twoProcessors
      (Machine.start (fun _ => 0) fun _ => none, bootPhases)).map (fun p => p.2.2 1) = some .init := by
    decide +kernel
  obtain ⟨⟨h, m, φ⟩, hm, hφ⟩ := Option.map_eq_some_iff.mp hplay
  have hrun : BootRun (fun _ => none) h (m, φ) := Run.refl.of_play hm
  exact ⟨h, m, φ, hrun, hφ, (boot_inOrder (by decide) hrun).1 0 1 (by decide) (by simp only at hφ; simp [hφ])⟩

end Kalisto
