import Kalisto.Include
import Kalisto.Lib.LoadLinked

/-!
# Atomic variables

The operations of `adt/atomic.h` as the instructions of their assembly code, run by any number of
processors on any number of variables, one instruction at a time in any order.  The output operands
hold anything at the start of a call, and a processor can lose its link at any time (an interrupt ends
with `eret`, which breaks it).

* `atomicOutline` — what holds before each instruction of each operation;
* `atomic_linearizable` — each call takes effect at once, between its call and its return;
* `atomic_lockFree` — the retry loops are lock-free.
-/

namespace Kalisto

open LoadLinked Linearizability

/-- The operands of the assembly code. -/
inductive Operand where
  | orig
  | result
  | num
  deriving DecidableEq, Repr

/-- A call of one of the operations on the variable `var`. -/
inductive AtomicOp (A : Type) where
  | get (var : A)
  | set (var : A) (val : Word)
  | testAndSet (var : A)
  | add (var : A) (num : Word)
  | postAdd (var : A) (num : Word)
  | sub (var : A) (num : Word)
  deriving DecidableEq, Repr

/-! ### The code -/

/-- `atomic_get`. -/
def atomicGet : List (Instr Operand) := [.lw .orig]

/-- `atomic_set`. -/
def atomicSet : List (Instr Operand) := [.sw .num]

/-- `atomic_test_and_set`. -/
def atomicTestAndSet : List (Instr Operand) :=
  [.ll .orig,
    .bnez .orig 6,
    .li .result 1,
    .sc .result,
    .beqz .result 0,
    .nop,
    .sync]

/-- `atomic_add`. -/
def atomicAdd : List (Instr Operand) :=
  [.ll .orig,
    .addu .result .orig .num,
    .sc .result,
    .beqz .result 0,
    .nop,
    .addu .result .orig .num,
    .sync]

/-- `atomic_post_add`. -/
def atomicPostAdd : List (Instr Operand) :=
  [.ll .orig,
    .addu .result .orig .num,
    .sc .result,
    .beqz .result 0,
    .nop,
    .sync]

/-- `atomic_sub`. -/
def atomicSub : List (Instr Operand) :=
  [.ll .orig,
    .subu .result .orig .num,
    .sc .result,
    .beqz .result 0,
    .nop,
    .subu .result .orig .num,
    .sync]

namespace AtomicOp

variable {A : Type}

/-- The variable of a call. -/
def var : AtomicOp A → A
  | get a | set a _ | testAndSet a | add a _ | postAdd a _ | sub a _ => a

/-- The instructions of a call. -/
def prog : AtomicOp A → List (Instr Operand)
  | get _ => atomicGet
  | set _ _ => atomicSet
  | testAndSet _ => atomicTestAndSet
  | add _ _ => atomicAdd
  | postAdd _ _ => atomicPostAdd
  | sub _ _ => atomicSub

/-- The input operand; the others hold what the registers held before. -/
def enter : AtomicOp A → (Operand → Word) → Operand → Word
  | set _ v, regs | add _ v, regs | postAdd _ v, regs | sub _ v, regs => Function.update regs .num v
  | get _, regs | testAndSet _, regs => regs

/-- The value of a call; `atomic_set` has none. -/
def value : AtomicOp A → (Operand → Word) → Option Word
  | get _, regs | testAndSet _, regs | postAdd _ _, regs => some (regs .orig)
  | add _ _, regs | sub _ _, regs => some (regs .result)
  | set _ _, _ => none

/-- The operation as one step. -/
def apply : AtomicOp A → Word → Word × Option Word
  | get _, w => (w, some w)
  | set _ v, _ => (v, none)
  | testAndSet _, w => (if w = 0 then 1 else w, some w)
  | add _ n, w => (w + n, some (w + n))
  | postAdd _ n, w => (w + n, some w)
  | sub _ n, w => (w - n, some (w - n))

end AtomicOp

/-- The code of `adt/atomic.h`. -/
def atomicCode (A : Type) : Code A Operand (AtomicOp A) (Option Word) where
  var := AtomicOp.var
  prog := AtomicOp.prog
  enter := AtomicOp.enter
  value := AtomicOp.value

/-! ### Loads and stores -/

/-- What holds in `atomic_get`. -/
inductive GetOk : Option (Option Word) → Bool → Word → CallFrame Operand → Prop
  | load {b w regs} : GetOk none b w ⟨regs, 0, 1⟩
  | finish {b w} (regs) : GetOk (some (some (regs .orig))) b w ⟨regs, 1, 2⟩

/-- What holds in `atomic_set`. -/
inductive SetOk (v : Word) : Option (Option Word) → Bool → Word → CallFrame Operand → Prop
  | store {b w regs} (hv : regs .num = v) : SetOk v none b w ⟨regs, 0, 1⟩
  | finish {b w regs} : SetOk v (some none) b w ⟨regs, 1, 2⟩

/-- Before and after the only instruction. -/
def singleLeft : Option (Option Word) → Bool → CallFrame Operand → ℕ
  | none, _, _ => 1
  | some _, _, _ => 0

theorem getOutline {A : Type} (a : A) : CallOutline atomicGet (AtomicOp.enter (.get a))
    (AtomicOp.value (.get a)) (AtomicOp.apply (.get a)) GetOk singleLeft 9 where
  enter := fun _ _ _ => .load
  lose := by
    intro o b w w' f h
    cases h with
    | load => exact .load
    | finish regs => exact .finish regs
  exec := by
    intro o b w f i h hi
    cases h with
    | load =>
      obtain rfl : Instr.lw .orig = i := by simpa [atomicGet] using hi
      exact .inr ⟨rfl, rfl, .finish (Function.update _ .orig w)⟩
    | finish => simp [atomicGet] at hi
  ret := by
    intro o b w f h hend
    cases h with
    | load => simp [atomicGet] at hend
    | finish => rfl
  bounded := by
    intro o b f
    cases o <;> simp [singleLeft]

theorem setOutline {A : Type} (a : A) (v : Word) : CallOutline atomicSet (AtomicOp.enter (.set a v))
    (AtomicOp.value (.set a v)) (AtomicOp.apply (.set a v)) (SetOk v) singleLeft 9 where
  enter := fun regs _ _ => .store (by simp [AtomicOp.enter])
  lose := by
    intro o b w w' f h
    cases h with
    | store hv => exact .store hv
    | finish => exact .finish
  exec := by
    intro o b w f i h hi
    cases h with
    | store hv =>
      obtain rfl : Instr.sw .num = i := by simpa [atomicSet] using hi
      exact .inr ⟨rfl, hv, .finish⟩
    | finish => simp [atomicSet] at hi
  ret := by
    intro o b w f h hend
    cases h with
    | store hv => simp [atomicSet] at hend
    | finish => rfl
  bounded := by
    intro o b f
    cases o <;> simp [singleLeft]

/-! ### `atomic_test_and_set` -/

/-- What holds in `atomic_test_and_set`.  A value that is not 0 ends the call at `ll`. -/
inductive TestAndSetOk : Option (Option Word) → Bool → Word → CallFrame Operand → Prop
  | load {b w regs} : TestAndSetOk none b w ⟨regs, 0, 1⟩
  | test {b w regs} (h0 : regs .orig = 0) (hw : b = true → w = 0) : TestAndSetOk none b w ⟨regs, 1, 2⟩
  | one {b w regs} (h0 : regs .orig = 0) (hw : b = true → w = 0) : TestAndSetOk none b w ⟨regs, 2, 3⟩
  | store {b w regs} (h0 : regs .orig = 0) (hr : regs .result = 1) (hw : b = true → w = 0) :
      TestAndSetOk none b w ⟨regs, 3, 4⟩
  | failed {b w regs} (hr : regs .result = 0) : TestAndSetOk none b w ⟨regs, 4, 5⟩
  | again {b w regs} : TestAndSetOk none b w ⟨regs, 5, 0⟩
  | nonzero {b w} (regs) (h0 : regs .orig ≠ 0) : TestAndSetOk (some (some (regs .orig))) b w ⟨regs, 1, 2⟩
  | leave {b w regs} : TestAndSetOk (some (some (regs .orig))) b w ⟨regs, 2, 6⟩
  | stored {b w} (regs) (hr : regs .result ≠ 0) : TestAndSetOk (some (some (regs .orig))) b w ⟨regs, 4, 5⟩
  | pass {b w regs} : TestAndSetOk (some (some (regs .orig))) b w ⟨regs, 5, 6⟩
  | sync {b w} (regs) : TestAndSetOk (some (some (regs .orig))) b w ⟨regs, 6, 7⟩
  | finish {b w regs} : TestAndSetOk (some (some (regs .orig))) b w ⟨regs, 7, 8⟩

/-- The instructions that remain; without the link one more round. -/
def testAndSetLeft : Option (Option Word) → Bool → CallFrame Operand → ℕ
  | none, b, f =>
    match f.pc with
    | 0 => 4
    | 1 => if b then 3 else 9
    | 2 => if b then 2 else 8
    | 3 => if b then 1 else 7
    | 4 => 6
    | _ => 5
  | some _, _, f =>
    match f.pc with
    | 1 | 4 => 3
    | 2 | 5 => 2
    | 6 => 1
    | _ => 0

theorem testAndSetOutline {A : Type} (a : A) : CallOutline atomicTestAndSet
    (AtomicOp.enter (.testAndSet a)) (AtomicOp.value (.testAndSet a)) (AtomicOp.apply (.testAndSet a))
    TestAndSetOk testAndSetLeft 9 where
  enter := fun _ _ _ => .load
  lose := by
    intro o b w w' f h
    cases h with
    | load => exact .load
    | test h0 hw => exact .test h0 nofun
    | one h0 hw => exact .one h0 nofun
    | store h0 hr hw => exact .store h0 hr nofun
    | failed hr => exact .failed hr
    | again => exact .again
    | nonzero regs h0 => exact .nonzero regs h0
    | leave => exact .leave
    | stored regs hr => exact .stored regs hr
    | pass => exact .pass
    | sync regs => exact .sync regs
    | finish => exact .finish
  exec := by
    intro o b w f i h hi
    cases h with
    | @load _ _ regs =>
      obtain rfl : Instr.ll .orig = i := by simpa [atomicTestAndSet] using hi
      by_cases hw : w = 0
      · subst hw
        exact .inl ⟨rfl, .test (Function.update_self ..) fun _ => rfl,
          by simp [LoadLinked.exec, CallFrame.set, Access.linked, testAndSetLeft]⟩
      · -- the call takes effect: it returns the value it has read
        refine .inr ⟨rfl, (if_neg hw).symm, ?_⟩
        rw [AtomicOp.apply, if_neg hw]
        exact .nonzero (Function.update regs .orig w) hw
    | test h0 hw =>
      obtain rfl : Instr.bnez .orig 6 = i := by simpa [atomicTestAndSet] using hi
      rw [exec_bnez_zero h0]
      refine .inl ⟨rfl, .one h0 hw, ?_⟩
      cases b <;> simp [CallFrame.skip, Access.linked, testAndSetLeft]
    | one h0 hw =>
      obtain rfl : Instr.li .result 1 = i := by simpa [atomicTestAndSet] using hi
      refine .inl ⟨rfl, .store ?_ (Function.update_self ..) hw, ?_⟩
      · exact h0
      · cases b <;> simp [LoadLinked.exec, CallFrame.set, Access.linked, testAndSetLeft]
    | @store _ _ regs h0 hr hw =>
      obtain rfl : Instr.sc .result = i := by simpa [atomicTestAndSet] using hi
      cases b with
      | false =>
        refine .inl ⟨rfl, .failed (Function.update_self ..), ?_⟩
        simp [LoadLinked.exec, CallFrame.set, testAndSetLeft]
      | true =>
        obtain rfl := hw rfl
        refine .inr ⟨rfl, hr, ?_⟩
        have hok := TestAndSetOk.stored (b := false) (w := 1) (Function.update regs .result 1) (by simp)
        rwa [Function.update_of_ne (by decide), h0] at hok
    | failed hr =>
      obtain rfl : Instr.beqz .result 0 = i := by simpa [atomicTestAndSet] using hi
      rw [exec_beqz_zero hr]
      exact .inl ⟨rfl, .again, by simp [CallFrame.branch, testAndSetLeft]⟩
    | again =>
      obtain rfl : Instr.nop = i := by simpa [atomicTestAndSet] using hi
      exact .inl ⟨rfl, .load, by simp [LoadLinked.exec, CallFrame.skip, testAndSetLeft]⟩
    | nonzero _ h0 =>
      obtain rfl : Instr.bnez .orig 6 = i := by simpa [atomicTestAndSet] using hi
      rw [exec_bnez_ne h0]
      exact .inl ⟨rfl, .leave, by simp [CallFrame.branch, testAndSetLeft]⟩
    | @leave _ _ regs =>
      obtain rfl : Instr.li .result 1 = i := by simpa [atomicTestAndSet] using hi
      refine .inl ⟨rfl, ?_, by simp [LoadLinked.exec, CallFrame.set, testAndSetLeft]⟩
      exact .sync (Function.update regs .result 1)
    | stored _ hr =>
      obtain rfl : Instr.beqz .result 0 = i := by simpa [atomicTestAndSet] using hi
      rw [exec_beqz_ne hr]
      exact .inl ⟨rfl, .pass, by simp [CallFrame.skip, testAndSetLeft]⟩
    | pass =>
      obtain rfl : Instr.nop = i := by simpa [atomicTestAndSet] using hi
      exact .inl ⟨rfl, .sync _, by simp [LoadLinked.exec, CallFrame.skip, testAndSetLeft]⟩
    | sync =>
      obtain rfl : Instr.sync = i := by simpa [atomicTestAndSet] using hi
      exact .inl ⟨rfl, .finish, by simp [LoadLinked.exec, CallFrame.skip, testAndSetLeft]⟩
    | finish => simp [atomicTestAndSet] at hi
  ret := by
    intro o b w f h hend
    cases h with
    | finish => rfl
    | _ => simp [atomicTestAndSet] at hend
  bounded := by
    intro o b f
    cases o <;> cases b <;> simp only [testAndSetLeft] <;> split <;> decide

/-! ### Additions and subtractions -/

/-- The retry loop of an addition or subtraction, and how it ends: with the new value computed again, or
with the old one. -/
def retryLoop (alu : Instr Operand) (newValue : Bool) : List (Instr Operand) :=
  [.ll .orig, alu, .sc .result, .beqz .result 0, .nop] ++ if newValue then [alu, .sync] else [.sync]

/-- What holds in a retry loop that computes `g` of the word and of the operand `n`. -/
inductive RetryOk (g : Word → Word → Word) (n : Word) (newValue : Bool) :
    Option (Option Word) → Bool → Word → CallFrame Operand → Prop
  | load {b w regs} (hn : regs .num = n) : RetryOk g n newValue none b w ⟨regs, 0, 1⟩
  | compute {b w regs} (hn : regs .num = n) (hw : b = true → regs .orig = w) :
      RetryOk g n newValue none b w ⟨regs, 1, 2⟩
  | store {b w regs} (hn : regs .num = n) (hr : regs .result = g (regs .orig) n)
      (hw : b = true → regs .orig = w) : RetryOk g n newValue none b w ⟨regs, 2, 3⟩
  | failed {b w regs} (hn : regs .num = n) (hr : regs .result = 0) :
      RetryOk g n newValue none b w ⟨regs, 3, 4⟩
  | again {b w regs} (hn : regs .num = n) : RetryOk g n newValue none b w ⟨regs, 4, 0⟩
  | stored {b w regs v} (hn : regs .num = n) (hr : regs .result ≠ 0)
      (hv : v = if newValue then g (regs .orig) n else regs .orig) :
      RetryOk g n newValue (some (some v)) b w ⟨regs, 3, 4⟩
  | leave {b w regs v} (hn : regs .num = n) (hv : v = if newValue then g (regs .orig) n else regs .orig) :
      RetryOk g n newValue (some (some v)) b w ⟨regs, 4, 5⟩
  | recompute {b w regs v} (hnew : newValue = true) (hn : regs .num = n) (hv : v = g (regs .orig) n) :
      RetryOk g n newValue (some (some v)) b w ⟨regs, 5, 6⟩
  | syncNew {b w} (regs) (hnew : newValue = true) :
      RetryOk g n newValue (some (some (regs .result))) b w ⟨regs, 6, 7⟩
  | finishNew {b w regs} (hnew : newValue = true) :
      RetryOk g n newValue (some (some (regs .result))) b w ⟨regs, 7, 8⟩
  | syncOld {b w regs} (hold : newValue = false) :
      RetryOk g n newValue (some (some (regs .orig))) b w ⟨regs, 5, 6⟩
  | finishOld {b w regs} (hold : newValue = false) :
      RetryOk g n newValue (some (some (regs .orig))) b w ⟨regs, 6, 7⟩

/-- The instructions that remain; without the link one more round. -/
def retryLeft : Option (Option Word) → Bool → CallFrame Operand → ℕ
  | none, b, f =>
    match f.pc with
    | 0 => 3
    | 1 => if b then 2 else 7
    | 2 => if b then 1 else 6
    | 3 => 5
    | _ => 4
  | some _, _, f => 7 - f.pc

section RetryLoop

variable {alu : Instr Operand} {g : Word → Word → Word} {n : Word} {newValue : Bool}

theorem RetryOk.lose {o : Option (Option Word)} {b : Bool} {w w' : Word} {f : CallFrame Operand}
    (h : RetryOk g n newValue o b w f) : RetryOk g n newValue o false w' f := by
  cases h with
  | load hn => exact .load hn
  | compute hn hw => exact .compute hn nofun
  | store hn hr hw => exact .store hn hr nofun
  | failed hn hr => exact .failed hn hr
  | again hn => exact .again hn
  | stored hn hr hv => exact .stored hn hr hv
  | leave hn hv => exact .leave hn hv
  | recompute hnew hn hv => exact .recompute hnew hn hv
  | syncNew regs hnew => exact .syncNew regs hnew
  | finishNew hnew => exact .finishNew hnew
  | syncOld hold => exact .syncOld hold
  | finishOld hold => exact .finishOld hold

/-- One instruction of the loop. -/
theorem RetryOk.exec
    (halu : ∀ w b (f : CallFrame Operand),
      LoadLinked.exec w b f alu = (f.set .result (g (f.regs .orig) (f.regs .num)), .none))
    {o : Option (Option Word)} {b : Bool} {w : Word} {f : CallFrame Operand} {i : Instr Operand}
    (h : RetryOk g n newValue o b w f) (hi : (retryLoop alu newValue)[f.pc]? = some i) :
    ((LoadLinked.exec w b f i).2.stores = false ∧
      RetryOk g n newValue o ((LoadLinked.exec w b f i).2.linked b) w (LoadLinked.exec w b f i).1 ∧
      retryLeft o ((LoadLinked.exec w b f i).2.linked b) (LoadLinked.exec w b f i).1 < retryLeft o b f) ∨
    (o = none ∧ (LoadLinked.exec w b f i).2.word w = g w n ∧
      RetryOk g n newValue (some (some (if newValue then g w n else w)))
        ((LoadLinked.exec w b f i).2.linked b) (g w n) (LoadLinked.exec w b f i).1) := by
  cases h with
  | load hn =>
    obtain rfl : Instr.ll .orig = i := by simpa [retryLoop] using hi
    refine .inl ⟨rfl, .compute hn fun _ => Function.update_self .., ?_⟩
    simp [LoadLinked.exec, CallFrame.set, Access.linked, retryLeft]
  | compute hn hw =>
    obtain rfl : alu = i := by simpa [retryLoop] using hi
    rw [halu]
    refine .inl ⟨rfl, .store hn ?_ hw, ?_⟩
    · simp [hn]
    · cases b <;> simp [CallFrame.set, Access.linked, retryLeft]
  | store hn hr hw =>
    obtain rfl : Instr.sc .result = i := by simpa [retryLoop] using hi
    cases b with
    | false =>
      refine .inl ⟨rfl, .failed hn (Function.update_self ..), ?_⟩
      simp [LoadLinked.exec, CallFrame.set, retryLeft]
    | true =>
      -- the processor is still linked, so the word is the one it has read
      obtain rfl := hw rfl
      exact .inr ⟨rfl, hr, .stored hn (by simp) rfl⟩
  | failed hn hr =>
    obtain rfl : Instr.beqz .result 0 = i := by simpa [retryLoop] using hi
    rw [exec_beqz_zero hr]
    exact .inl ⟨rfl, .again hn, by simp [CallFrame.branch, retryLeft]⟩
  | again hn =>
    obtain rfl : Instr.nop = i := by simpa [retryLoop] using hi
    exact .inl ⟨rfl, .load hn, by simp [LoadLinked.exec, CallFrame.skip, retryLeft]⟩
  | stored hn hr hv =>
    obtain rfl : Instr.beqz .result 0 = i := by simpa [retryLoop] using hi
    rw [exec_beqz_ne hr]
    exact .inl ⟨rfl, .leave hn hv, by simp [CallFrame.skip, retryLeft]⟩
  | leave hn hv =>
    obtain rfl : Instr.nop = i := by simpa [retryLoop] using hi
    refine .inl ⟨rfl, ?_, by simp [LoadLinked.exec, CallFrame.skip, retryLeft]⟩
    cases newValue with
    | false =>
      subst hv
      exact .syncOld rfl
    | true => exact .recompute rfl hn hv
  | @recompute _ _ regs v hnew hn hv =>
    subst hnew
    obtain rfl : alu = i := by simpa [retryLoop] using hi
    rw [halu]
    refine .inl ⟨rfl, ?_, by simp [CallFrame.set, retryLeft]⟩
    simp only [hn, ← hv]
    have hok := RetryOk.syncNew (g := g) (n := n) (b := b) (w := w) (Function.update regs .result v) rfl
    rw [Function.update_self] at hok
    exact hok
  | syncNew _ hnew =>
    subst hnew
    obtain rfl : Instr.sync = i := by simpa [retryLoop] using hi
    exact .inl ⟨rfl, .finishNew rfl, by simp [LoadLinked.exec, CallFrame.skip, retryLeft]⟩
  | finishNew hnew =>
    subst hnew
    simp [retryLoop] at hi
  | syncOld hold =>
    subst hold
    obtain rfl : Instr.sync = i := by simpa [retryLoop] using hi
    exact .inl ⟨rfl, .finishOld rfl, by simp [LoadLinked.exec, CallFrame.skip, retryLeft]⟩
  | finishOld hold =>
    subst hold
    simp [retryLoop] at hi

/-- The outline of a retry loop. -/
theorem retryOutline (alu : Instr Operand) (g : Word → Word → Word) (n : Word) (newValue : Bool)
    (halu : ∀ w b (f : CallFrame Operand),
      LoadLinked.exec w b f alu = (f.set .result (g (f.regs .orig) (f.regs .num)), .none))
    {enter : (Operand → Word) → Operand → Word} {value : (Operand → Word) → Option Word}
    {apply : Word → Word × Option Word} (henter : ∀ regs, enter regs .num = n)
    (hvalue : ∀ regs, value regs = some (if newValue then regs .result else regs .orig))
    (happly : ∀ w, apply w = (g w n, some (if newValue then g w n else w))) :
    CallOutline (retryLoop alu newValue) enter value apply (RetryOk g n newValue) retryLeft 9 where
  enter := fun regs _ _ => .load (henter regs)
  lose := fun _ _ _ _ _ h => h.lose
  exec := by
    intro o b w f i h hi
    rw [happly]
    exact h.exec halu hi
  ret := by
    intro o b w f h hend
    rw [hvalue]
    cases h with
    | finishNew hnew => simp [hnew]
    | finishOld hold => simp [hold]
    | syncNew _ hnew => simp [hnew, retryLoop] at hend
    | syncOld hold => simp [hold, retryLoop] at hend
    | recompute hnew => simp [hnew, retryLoop] at hend
    | _ => cases newValue <;> simp [retryLoop] at hend
  bounded := by
    intro o b f
    cases o with
    | none => cases b <;> simp only [retryLeft] <;> split <;> decide
    | some v => simp only [retryLeft]; omega

end RetryLoop

/-! ### All operations -/

/-- What holds in a call. -/
def AtomicOk {A : Type} : AtomicOp A → Option (Option Word) → Bool → Word → CallFrame Operand → Prop
  | .get _ => GetOk
  | .set _ v => SetOk v
  | .testAndSet _ => TestAndSetOk
  | .add _ n => RetryOk (· + ·) n true
  | .postAdd _ n => RetryOk (· + ·) n false
  | .sub _ n => RetryOk (· - ·) n true

/-- The instructions that remain in a call. -/
def atomicLeft {A : Type} : AtomicOp A → Option (Option Word) → Bool → CallFrame Operand → ℕ
  | .get _ | .set _ _ => singleLeft
  | .testAndSet _ => testAndSetLeft
  | .add _ _ | .postAdd _ _ | .sub _ _ => retryLeft

/-- **What holds before each instruction of each operation.** -/
theorem atomicOutline (A : Type) : Outline (atomicCode A) AtomicOp.apply AtomicOk atomicLeft 9 := by
  intro op
  cases op with
  | get a => exact getOutline a
  | set a v => exact setOutline a v
  | testAndSet a => exact testAndSetOutline a
  | add a n =>
    exact retryOutline (.addu .result .orig .num) (· + ·) n true (fun _ _ _ => rfl)
      (fun _ => by simp [atomicCode, AtomicOp.enter]) (fun _ => rfl) (fun _ => rfl)
  | postAdd a n =>
    exact retryOutline (.addu .result .orig .num) (· + ·) n false (fun _ _ _ => rfl)
      (fun _ => by simp [atomicCode, AtomicOp.enter]) (fun _ => rfl) (fun _ => rfl)
  | sub a n =>
    exact retryOutline (.subu .result .orig .num) (· - ·) n true (fun _ _ _ => rfl)
      (fun _ => by simp [atomicCode, AtomicOp.enter]) (fun _ => rfl) (fun _ => rfl)

/-! ### Runs -/

section Runs

variable {P A : Type} [DecidableEq P] [DecidableEq A] {mem : A → Word} {link : P → Option A}
  {m : Machine P A Operand (AtomicOp A)} {h : List (Event P (AtomicOp A) (Option Word))}

/-- Processors that call the operations in any order. -/
def AtomicRun (mem : A → Word) (link : P → Option A) :
    List (Event P (AtomicOp A) (Option Word)) → Machine P A Operand (AtomicOp A) → Prop :=
  Run (Machine.step (atomicCode A)) (Machine.start mem link)

/-- An operation on the memory. -/
def AtomicOp.applyTo (op : AtomicOp A) (mem : A → Word) : (A → Word) × Option Word :=
  (Function.update mem op.var (op.apply (mem op.var)).1, (op.apply (mem op.var)).2)

theorem onWord_atomicCode : onWord (atomicCode A) AtomicOp.apply = AtomicOp.applyTo := rfl

/-- **Every call takes effect at once.** -/
theorem atomic_linearizable (hrun : AtomicRun mem link h m) :
    ∃ order, Linearization AtomicOp.applyTo mem m.mem h order := by
  rw [← onWord_atomicCode]
  exact (atomicOutline A).linearizable hrun

/-- **The retry loops are lock-free.** -/
theorem atomic_lockFree [Fintype P] {cs : List (Choice P Operand (AtomicOp A))}
    {m' : Machine P A Operand (AtomicOp A)} {h' : List (Event P (AtomicOp A) (Option Word))}
    (hrun : AtomicRun mem link h m) (hplay : play (Machine.step (atomicCode A)) cs m = some (h', m'))
    (hlose : ∀ c ∈ cs, c.isLose = false)
    (hlong : Fintype.card P * (9 * Fintype.card P + 10) < cs.countP Choice.isExec) :
    ∃ i p r, .ret i p r ∈ h' := by
  obtain ⟨a, hR, _⟩ := (atomicOutline A).simulates hrun
  refine (atomicOutline A).lock_free hR hplay hlose ?_
  exact ((atomicOutline A).potential_le).trans_lt (by simpa [Nat.add_assoc] using hlong)

end Runs

/-! ### Two runs -/

/-- Two processors reserve a number each; the first one loses its link to the store of the second. -/
def overtaken : List (Choice (Fin 2) Operand (AtomicOp Unit)) :=
  List.flatten [
    [.call 0 (.postAdd () 1) fun _ => 7, .exec 0, .exec 0, .call 1 (.postAdd () 1) fun _ => 9],
    List.replicate 6 (.exec 1), [.ret 1], List.replicate 9 (.exec 0), [.ret 0]]

/-- What is seen of it. -/
def overtakenHistory : List (Event (Fin 2) (AtomicOp Unit) (Option Word)) :=
  [.call 0 0 (.postAdd () 1), .call 1 1 (.postAdd () 1), .ret 1 1 (some 5), .ret 0 0 (some 6)]

theorem overtaken_run : ∃ m, AtomicRun (fun _ => 5) (fun _ => none) overtakenHistory m ∧ m.mem () = 7 := by
  have hplay : (play (Machine.step (atomicCode Unit)) overtaken
      (Machine.start (fun _ => 5) fun _ => none)).map (fun p => (p.1, p.2.mem ())) =
        some (overtakenHistory, 7) := by decide +kernel
  obtain ⟨⟨h, m⟩, hm, heq⟩ := Option.map_eq_some_iff.mp hplay
  obtain ⟨rfl, hmem⟩ := Prod.mk.inj heq
  exact ⟨m, Run.refl.of_play hm, hmem⟩

/-- The call that began first takes effect last. -/
theorem atomic_linearizable_overtaken : ∃ (m : Machine (Fin 2) Unit Operand (AtomicOp Unit)),
    AtomicRun (fun _ => 5) (fun _ => none) overtakenHistory m ∧ m.mem () = 7 ∧
      ∃ order, Linearization AtomicOp.applyTo (fun _ => 5) m.mem overtakenHistory order := by
  obtain ⟨m, hrun, hmem⟩ := overtaken_run
  exact ⟨m, hrun, hmem, atomic_linearizable hrun⟩

/-- Two processors add, three times each; the first one has to try twice every time. -/
def threeRounds : List (Choice (Fin 2) Operand (AtomicOp Unit)) :=
  List.flatten (List.replicate 3 (List.flatten [
    [.call 0 (.add () 1) fun _ => 0, .exec 0, .exec 0, .call 1 (.add () 1) fun _ => 0],
    List.replicate 7 (.exec 1), [.ret 1], List.replicate 10 (.exec 0), [.ret 0]]))

theorem atomic_lockFree_threeRounds : ∃ (h : List (Event (Fin 2) (AtomicOp Unit) (Option Word)))
    (m : Machine (Fin 2) Unit Operand (AtomicOp Unit)),
    play (Machine.step (atomicCode Unit)) threeRounds (Machine.start (fun _ => 0) fun _ => none) =
        some (h, m) ∧ m.mem () = 6 ∧ ∃ i p r, .ret i p r ∈ h := by
  have hplay : (play (Machine.step (atomicCode Unit)) threeRounds
      (Machine.start (fun _ => 0) fun _ => none)).map (fun p => p.2.mem ()) = some 6 := by decide +kernel
  obtain ⟨⟨h, m⟩, hplay, hmem⟩ := Option.map_eq_some_iff.mp hplay
  have hrun : AtomicRun (P := Fin 2) (A := Unit) (fun _ => 0) (fun _ => none) []
      (Machine.start (fun _ => 0) fun _ => none) := .refl
  exact ⟨h, m, hplay, hmem, atomic_lockFree hrun hplay (by decide) (by decide)⟩

end Kalisto
