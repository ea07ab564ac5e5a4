import Mathlib.Algebra.BigOperators.Group.Finset.Basic
import Mathlib.Algebra.Group.Action.Defs
import Mathlib.Algebra.Order.BigOperators.Group.Finset
import Mathlib.Data.Fintype.Card
import Kalisto.Lib.Linearizable

/-!
# Load-linked and store-conditional

Processors that run short sequences of instructions on a shared word of memory.  `ll` reads the word
and links the processor to it; `sc` stores only if the link still stands.  A store breaks every link to
its word.  A link can also be lost at any time: by an exception, or by a store close to the word.  A
branch takes effect after the instruction that follows it.

An outline of the sequences says what holds before each instruction of a call, before and after it has
taken effect.  Its conditions are about one processor: another one can only break the link and change
the word.

* `Outline.simulates` — with an outline each call takes effect in one step, between call and return;
* `Outline.linearizable` — all histories are linearizable;
* `Outline.lock_free` — when no link is lost except to stores, some call returns.
-/

namespace LoadLinked

open Linearizability

/-- The instructions, with registers `R`; the memory operand is always the word of the call. -/
inductive Instr (R : Type) where
  | ll (rt : R)
  | sc (rt : R)
  | lw (rt : R)
  | sw (rt : R)
  | li (rt : R) (imm : BitVec 32)
  | addu (rd rs rt : R)
  | subu (rd rs rt : R)
  | beqz (rs : R) (target : ℕ)
  | bnez (rs : R) (target : ℕ)
  | nop
  | sync
  deriving DecidableEq, Repr

/-- The registers, the instruction to execute and the one after it. -/
structure CallFrame (R : Type) where
  regs : R → BitVec 32
  pc : ℕ
  npc : ℕ

/-- What an instruction does to the shared memory. -/
inductive Access where
  | none
  | link
  | store (v : BitVec 32)
  deriving DecidableEq, Repr

namespace Access

/-- The word after the access. -/
def word (w : BitVec 32) : Access → BitVec 32
  | store v => v
  | _ => w

/-- Whether the processor is linked after the access. -/
def linked (b : Bool) : Access → Bool
  | none => b
  | link => true
  | store _ => false

/-- Whether the access is a store. -/
def stores : Access → Bool
  | store _ => true
  | _ => false

theorem word_of_stores {x : Access} (h : x.stores = false) (w : BitVec 32) : x.word w = w := by
  cases x with
  | none => rfl
  | link => rfl
  | store v => simp [stores] at h

end Access

section Exec

variable {R : Type} [DecidableEq R]

namespace CallFrame

/-- The next instruction, after a register was written. -/
def set (f : CallFrame R) (r : R) (v : BitVec 32) : CallFrame R := ⟨Function.update f.regs r v, f.npc, f.npc + 1⟩

/-- The next instruction. -/
def skip (f : CallFrame R) : CallFrame R := ⟨f.regs, f.npc, f.npc + 1⟩

/-- The next instruction, and then the one at `target`. -/
def branch (f : CallFrame R) (target : ℕ) : CallFrame R := ⟨f.regs, f.npc, target⟩

end CallFrame

/-- One instruction, for the word `w` in memory and a processor that is linked to it or not. -/
def exec (w : BitVec 32) (linked : Bool) (f : CallFrame R) : Instr R → CallFrame R × Access
  | .ll rt => (f.set rt w, .link)
  | .sc rt => if linked then (f.set rt 1, .store (f.regs rt)) else (f.set rt 0, .none)
  | .lw rt => (f.set rt w, .none)
  | .sw rt => (f.skip, .store (f.regs rt))
  | .li rt imm => (f.set rt imm, .none)
  | .addu rd rs rt => (f.set rd (f.regs rs + f.regs rt), .none)
  | .subu rd rs rt => (f.set rd (f.regs rs - f.regs rt), .none)
  | .beqz rs target => (if f.regs rs = 0 then f.branch target else f.skip, .none)
  | .bnez rs target => (if f.regs rs ≠ 0 then f.branch target else f.skip, .none)
  | .nop => (f.skip, .none)
  | .sync => (f.skip, .none)

section Branches

variable {w : BitVec 32} {b : Bool} {f : CallFrame R} {rs : R} {target : ℕ}

theorem exec_beqz_zero (h : f.regs rs = 0) : exec w b f (.beqz rs target) = (f.branch target, .none) := by
  rw [exec, if_pos h]

theorem exec_beqz_ne (h : f.regs rs ≠ 0) : exec w b f (.beqz rs target) = (f.skip, .none) := by
  rw [exec, if_neg h]

theorem exec_bnez_zero (h : f.regs rs = 0) : exec w b f (.bnez rs target) = (f.skip, .none) := by
  rw [exec, if_neg (not_not.mpr h)]

theorem exec_bnez_ne (h : f.regs rs ≠ 0) : exec w b f (.bnez rs target) = (f.branch target, .none) := by
  rw [exec, if_pos h]

end Branches

end Exec

/-- The code of the operations: the word an operation works on, its instructions, its arguments in
registers, and the value it returns. -/
structure Code (A R Op Ret : Type) where
  var : Op → A
  prog : Op → List (Instr R)
  enter : Op → (R → BitVec 32) → R → BitVec 32
  value : Op → (R → BitVec 32) → Ret

/-- A call in progress. -/
structure Activation (R Op : Type) where
  id : ℕ
  op : Op
  frame : CallFrame R

/-- The memory, the links, the calls in progress and the number of the next call. -/
structure Machine (P A R Op : Type) where
  mem : A → BitVec 32
  link : P → Option A
  call : P → Option (Activation R Op)
  next : ℕ

/-- A processor calls, with some contents of the registers, executes an instruction, or returns; or it
loses its link. -/
inductive Choice (P R Op : Type) where
  | call (p : P) (op : Op) (regs : R → BitVec 32)
  | exec (p : P)
  | lose (p : P)
  | ret (p : P)

namespace Machine

variable {P A R Op Ret : Type} [DecidableEq P] [DecidableEq A]

/-- Nobody is in a call. -/
def start (mem : A → BitVec 32) (link : P → Option A) : Machine P A R Op := ⟨mem, link, fun _ => none, 0⟩

/-- Processor `p` is linked to word `a`. -/
def linked (m : Machine P A R Op) (p : P) (a : A) : Bool := m.link p = some a

/-- An access of processor `p` to word `a`. -/
def access (m : Machine P A R Op) (p : P) (a : A) : Access → Machine P A R Op
  | .none => m
  | .link => { m with link := Function.update m.link p (some a) }
  | .store v =>
    { m with
      mem := Function.update m.mem a v
      link := fun q => if m.link q = some a then none else m.link q }

/-- The call of processor `p` goes on as `x`. -/
def goto (m : Machine P A R Op) (p : P) (x : Option (Activation R Op)) : Machine P A R Op :=
  { m with call := Function.update m.call p x }

/-- **One step.** -/
def step [DecidableEq R] (C : Code A R Op Ret) :
    Choice P R Op → Machine P A R Op → Option (List (Event P Op Ret) × Machine P A R Op)
  | .call p op regs, m =>
    match m.call p with
    | none =>
      some ([.call m.next p op],
        { m.goto p (some ⟨m.next, op, C.enter op regs, 0, 1⟩) with next := m.next + 1 })
    | some _ => none
  | .exec p, m => do
    let t ← m.call p
    let i ← (C.prog t.op)[t.frame.pc]?
    let a := C.var t.op
    let r := LoadLinked.exec (m.mem a) (m.linked p a) t.frame i
    return ([], (m.goto p (some { t with frame := r.1 })).access p a r.2)
  | .lose p, m => some ([], { m with link := Function.update m.link p none })
  | .ret p, m => do
    let t ← m.call p
    if t.frame.pc = (C.prog t.op).length then
      return ([.ret t.id p (C.value t.op t.frame.regs)], m.goto p none)
    else none

variable {C : Code A R Op Ret}

/-- What one step can do. -/
theorem step_cases [DecidableEq R] {c : Choice P R Op} {m m' : Machine P A R Op} {e : List (Event P Op Ret)}
    (h : step C c m = some (e, m')) :
    (∃ p op regs, c = .call p op regs ∧ m.call p = none ∧ e = [.call m.next p op] ∧
      m' = { m.goto p (some ⟨m.next, op, C.enter op regs, 0, 1⟩) with next := m.next + 1 }) ∨
    (∃ p t i r, c = .exec p ∧ m.call p = some t ∧ (C.prog t.op)[t.frame.pc]? = some i ∧
      r = LoadLinked.exec (m.mem (C.var t.op)) (m.linked p (C.var t.op)) t.frame i ∧ e = [] ∧
      m' = (m.goto p (some { t with frame := r.1 })).access p (C.var t.op) r.2) ∨
    (∃ p, c = .lose p ∧ e = [] ∧ m' = { m with link := Function.update m.link p none }) ∨
    (∃ p t, c = .ret p ∧ m.call p = some t ∧ t.frame.pc = (C.prog t.op).length ∧
      e = [.ret t.id p (C.value t.op t.frame.regs)] ∧ m' = m.goto p none) := by
  cases c with
  | call p op regs =>
    cases hp : m.call p with
    | some t => simp [step, hp] at h
    | none =>
      simp only [step, hp, Option.some.injEq, Prod.mk.injEq] at h
      exact .inl ⟨p, op, regs, rfl, hp, h.1.symm, h.2.symm⟩
  | exec p =>
    cases hp : m.call p with
    | none => simp [step, hp] at h
    | some t =>
      cases hi : (C.prog t.op)[t.frame.pc]? with
      | none => simp [step, hp, hi] at h
      | some i =>
        simp only [step, hp, hi, Option.bind_eq_bind, Option.bind_some, Option.pure_def,
          Option.some.injEq, Prod.mk.injEq] at h
        exact .inr (.inl ⟨p, t, i, _, rfl, hp, hi, rfl, h.1.symm, h.2.symm⟩)
  | lose p =>
    simp only [step, Option.some.injEq, Prod.mk.injEq] at h
    exact .inr (.inr (.inl ⟨p, rfl, h.1.symm, h.2.symm⟩))
  | ret p =>
    cases hp : m.call p with
    | none => simp [step, hp] at h
    | some t =>
      by_cases hend : t.frame.pc = (C.prog t.op).length
      · simp only [step, hp, hend, Option.bind_eq_bind, Option.bind_some, if_true, Option.pure_def,
          Option.some.injEq, Prod.mk.injEq] at h
        exact .inr (.inr (.inr ⟨p, t, rfl, hp, hend, h.1.symm, h.2.symm⟩))
      · simp [step, hp, hend] at h

/-! ### What an access does -/

section Access

variable {m : Machine P A R Op} {p q : P} {a b : A} {x : LoadLinked.Access}

@[simp] theorem access_call : (m.access p a x).call = m.call := by cases x <;> rfl

@[simp] theorem access_next : (m.access p a x).next = m.next := by cases x <;> rfl

/-- Memory after an access. -/
theorem access_mem : (m.access p a x).mem = Function.update m.mem a (x.word (m.mem a)) := by
  cases x with
  | none => exact (Function.update_eq_self a m.mem).symm
  | link => exact (Function.update_eq_self a m.mem).symm
  | store v => rfl

/-- The link of the processor after its access. -/
theorem access_linked : (m.access p a x).linked p a = x.linked (m.linked p a) := by
  cases x with
  | none => rfl
  | link => simp [linked, access, LoadLinked.Access.linked]
  | store v => by_cases hl : m.link p = some a <;> simp [linked, access, LoadLinked.Access.linked, hl]

/-- Another processor sees nothing of an access, or is not linked. -/
theorem access_other (hq : q ≠ p) (b : A) :
    (m.access p a x).linked q b = m.linked q b ∧ (m.access p a x).mem b = m.mem b ∨
      (m.access p a x).linked q b = false := by
  cases x with
  | none => exact .inl ⟨rfl, rfl⟩
  | link => exact .inl ⟨by simp [linked, access, hq], rfl⟩
  | store v =>
    by_cases hb : b = a
    · refine .inr ?_
      subst hb
      by_cases hl : m.link q = some b <;> simp [linked, access, hl]
    · refine .inl ⟨?_, by simp [access, hb]⟩
      by_cases hl : m.link q = some a <;> simp [linked, access, hl, Ne.symm hb]

/-- Only stores break the links of other processors. -/
theorem access_linked_of_ne (hq : q ≠ p) (hx : x.stores = false) (b : A) :
    (m.access p a x).linked q b = m.linked q b := by
  cases x with
  | none => rfl
  | link => simp [linked, access, hq]
  | store v => simp [LoadLinked.Access.stores] at hx

end Access

end Machine

/-! ### Outlines -/

section Outline

variable {P A R Op Ret : Type}

/-- **An outline of one program.**  `Ok o b w f`: the call is at `f`, the processor is linked to the word
or not, the word is `w`, and the call has taken effect with the value in `o` or has not yet.  `left`
bounds the instructions that remain before the call takes effect, or before it returns. -/
structure CallOutline [DecidableEq R] (prog : List (Instr R)) (enter : (R → BitVec 32) → R → BitVec 32)
    (value : (R → BitVec 32) → Ret) (apply : BitVec 32 → BitVec 32 × Ret)
    (Ok : Option Ret → Bool → BitVec 32 → CallFrame R → Prop) (left : Option Ret → Bool → CallFrame R → ℕ)
    (bound : ℕ) : Prop where
  enter : ∀ regs b w, Ok none b w ⟨enter regs, 0, 1⟩
  /-- Another processor, or a lost link. -/
  lose : ∀ o b w w' f, Ok o b w f → Ok o false w' f
  exec : ∀ o b w f i, Ok o b w f → prog[f.pc]? = some i →
    ((LoadLinked.exec w b f i).2.stores = false ∧
      Ok o ((LoadLinked.exec w b f i).2.linked b) w (LoadLinked.exec w b f i).1 ∧
      left o ((LoadLinked.exec w b f i).2.linked b) (LoadLinked.exec w b f i).1 < left o b f) ∨
    (o = none ∧ (LoadLinked.exec w b f i).2.word w = (apply w).1 ∧
      Ok (some (apply w).2) ((LoadLinked.exec w b f i).2.linked b) (apply w).1
        (LoadLinked.exec w b f i).1)
  ret : ∀ o b w f, Ok o b w f → f.pc = prog.length → o = some (value f.regs)
  bounded : ∀ o b f, left o b f ≤ bound

/-- An outline of all operations. -/
def Outline [DecidableEq R] (C : Code A R Op Ret) (apply : Op → BitVec 32 → BitVec 32 × Ret)
    (Ok : Op → Option Ret → Bool → BitVec 32 → CallFrame R → Prop)
    (left : Op → Option Ret → Bool → CallFrame R → ℕ) (bound : ℕ) : Prop :=
  ∀ op, CallOutline (C.prog op) (C.enter op) (C.value op) (apply op) (Ok op) (left op) bound

/-- An operation on its word of the memory. -/
def onWord [DecidableEq A] (C : Code A R Op Ret) (apply : Op → BitVec 32 → BitVec 32 × Ret) (op : Op)
    (mem : A → BitVec 32) : (A → BitVec 32) × Ret :=
  (Function.update mem (C.var op) (apply op (mem (C.var op))).1, (apply op (mem (C.var op))).2)

/-- The calls on one word, in their order, are a sequence of calls on that word. -/
theorem legal_onWord [DecidableEq A] {C : Code A R Op Ret} {apply : Op → BitVec 32 → BitVec 32 × Ret}
    {mem mem' : A → BitVec 32} {order : List (Effect Op Ret)} (h : Legal (onWord C apply) mem order mem')
    (a : A) : Legal apply (mem a) (order.filter fun e => C.var e.op = a) (mem' a) := by
  induction order generalizing mem with
  | nil => exact congrFun h a
  | cons e es ih =>
    obtain ⟨hret, hrest⟩ := h
    have hrest := ih hrest
    rw [List.filter_cons]
    by_cases ha : C.var e.op = a
    · rw [if_pos (by simpa using ha)]
      subst ha
      exact ⟨hret, by simpa [onWord] using hrest⟩
    · rw [if_neg (by simpa using ha)]
      simpa [onWord, Ne.symm ha] using hrest

/-- The call that is at `t`, in the words of the object whose calls take effect in one step. -/
def activity (t : Activation R Op) : Option Ret → Activity Op Ret
  | none => .called t.id t.op
  | some r => .done t.id r

variable [DecidableEq A]

/-- Processor `q` in the two machines. -/
def Agrees (C : Code A R Op Ret) (Ok : Op → Option Ret → Bool → BitVec 32 → CallFrame R → Prop)
    (m : Machine P A R Op) (q : P) : Option (Activation R Op) → Activity Op Ret → Prop
  | none, x => x = .idle
  | some t, x =>
    ∃ o, x = activity t o ∧ Ok t.op o (m.linked q (C.var t.op)) (m.mem (C.var t.op)) t.frame

/-- The two machines. -/
structure Refines (C : Code A R Op Ret) (Ok : Op → Option Ret → Bool → BitVec 32 → CallFrame R → Prop)
    (m : Machine P A R Op) (a : Atomic P (A → BitVec 32) Op Ret) : Prop where
  obj : a.obj = m.mem
  next : a.next = m.next
  calls : ∀ p, Agrees C Ok m p (m.call p) (a.activity p)

variable [DecidableEq R] {C : Code A R Op Ret} {apply : Op → BitVec 32 → BitVec 32 × Ret}
  {Ok : Op → Option Ret → Bool → BitVec 32 → CallFrame R → Prop}
  {left : Op → Option Ret → Bool → CallFrame R → ℕ} {bound : ℕ}

/-- A processor stays at its instruction. -/
theorem Outline.other (ho : Outline C apply Ok left bound) {m m' : Machine P A R Op} {q : P}
    {t : Option (Activation R Op)} {x : Activity Op Ret} (h : Agrees C Ok m q t x)
    (hm : ∀ b, m'.linked q b = m.linked q b ∧ m'.mem b = m.mem b ∨ m'.linked q b = false) :
    Agrees C Ok m' q t x := by
  cases t with
  | none => exact h
  | some t =>
    obtain ⟨o, hx, hok⟩ := h
    refine ⟨o, hx, ?_⟩
    rcases hm (C.var t.op) with ⟨hl, hw⟩ | hl
    · rw [hl, hw]
      exact hok
    · rw [hl]
      exact (ho t.op).lose o _ _ _ t.frame hok

variable {m : Machine P A R Op} {a : Atomic P (A → BitVec 32) Op Ret}

section Steps

variable [DecidableEq P]

theorem Outline.refines_call (ho : Outline C apply Ok left bound) (hR : Refines C Ok m a) {p : P}
    (hp : m.call p = none) (op : Op) (regs : R → BitVec 32) :
    Refines C Ok { m.goto p (some ⟨m.next, op, C.enter op regs, 0, 1⟩) with next := m.next + 1 }
      { a.goto p (.called a.next op) with next := a.next + 1 } := by
  refine ⟨hR.obj, by simp [hR.next], ?_⟩
  intro q
  by_cases hq : q = p
  · subst hq
    simp only [Machine.goto, Atomic.goto, Function.update_self]
    exact ⟨none, by simp [activity, hR.next], (ho op).enter regs _ _⟩
  · simp only [Machine.goto, Atomic.goto, Function.update_of_ne hq]
    exact ho.other (hR.calls q) (fun b => .inl ⟨rfl, rfl⟩)

theorem Outline.answers_call (ho : Outline C apply Ok left bound) (hR : Refines C Ok m a) {p : P}
    (hp : m.call p = none) (op : Op) (regs : R → BitVec 32) :
    Answers (Atomic.step (onWord C apply)) (Refines C Ok) a [.call m.next p op]
      { m.goto p (some ⟨m.next, op, C.enter op regs, 0, 1⟩) with next := m.next + 1 } := by
  have hidle : a.activity p = .idle := by
    have := hR.calls p
    rwa [hp] at this
  exact ⟨_, ho.refines_call hR hp op regs, .inr ⟨.call p op, by simp [Atomic.step, hidle, hR.next]⟩⟩

/-- The call of `p` takes effect. -/
def commit (C : Code A R Op Ret) (apply : Op → BitVec 32 → BitVec 32 × Ret) (p : P)
    (t : Activation R Op) (a : Atomic P (A → BitVec 32) Op Ret) : Atomic P (A → BitVec 32) Op Ret :=
  { a.goto p (.done t.id (onWord C apply t.op a.obj).2) with obj := (onWord C apply t.op a.obj).1 }

/-- **What an instruction does to a call.**  Either the call comes closer to its end, or it takes effect. -/
theorem Outline.exec_cases (ho : Outline C apply Ok left bound) (hR : Refines C Ok m a) {p : P}
    {t : Activation R Op} {i : Instr R} (hp : m.call p = some t)
    (hi : (C.prog t.op)[t.frame.pc]? = some i) {f : CallFrame R} {x : Access}
    (hf : LoadLinked.exec (m.mem (C.var t.op)) (m.linked p (C.var t.op)) t.frame i = (f, x)) :
    (x.stores = false ∧
      Refines C Ok ((m.goto p (some { t with frame := f })).access p (C.var t.op) x) a ∧
      ∃ o, a.activity p = activity t o ∧
        left t.op o (x.linked (m.linked p (C.var t.op))) f < left t.op o (m.linked p (C.var t.op)) t.frame) ∨
    (a.activity p = activity t none ∧
      Refines C Ok ((m.goto p (some { t with frame := f })).access p (C.var t.op) x)
        (commit C apply p t a)) := by
  set m' := (m.goto p (some { t with frame := f })).access p (C.var t.op) x with hm'
  have hself : m'.call p = some { t with frame := f } := by simp [hm', Machine.goto]
  have hlink : m'.linked p (C.var t.op) = x.linked (m.linked p (C.var t.op)) := Machine.access_linked
  have hmem : m'.mem = Function.update m.mem (C.var t.op) (x.word (m.mem (C.var t.op))) :=
    Machine.access_mem
  have hnext : m'.next = m.next := Machine.access_next
  have hothers : ∀ q, q ≠ p → Agrees C Ok m' q (m'.call q) (a.activity q) := by
    intro q hq
    have hc : m'.call q = m.call q := by simp [hm', Machine.goto, hq]
    rw [hc]
    exact ho.other (hR.calls q) (fun b => Machine.access_other (m := m.goto p _) hq b)
  have hcall := hR.calls p
  rw [hp] at hcall
  obtain ⟨o, hact, hok⟩ := hcall
  have hexec := (ho t.op).exec o _ _ t.frame i hok hi
  simp only [hf] at hexec
  rcases hexec with ⟨hno, hok', hleft⟩ | ⟨rfl, hw, hok'⟩
  · -- the call has not taken effect yet, or has already
    refine .inl ⟨hno, ⟨?_, hR.next.trans hnext.symm, ?_⟩, o, hact, hleft⟩
    · rw [hmem, Access.word_of_stores hno, Function.update_eq_self, hR.obj]
    · intro q
      by_cases hq : q = p
      · subst hq
        rw [hself]
        refine ⟨o, hact, ?_⟩
        simp only [hlink, hmem, Function.update_self, Access.word_of_stores hno]
        exact hok'
      · exact hothers q hq
  · -- the call takes effect
    refine .inr ⟨hact, ⟨?_, hR.next.trans hnext.symm, ?_⟩⟩
    · rw [hmem, hw]
      simp only [commit, onWord, hR.obj]
    · intro q
      by_cases hq : q = p
      · subst hq
        rw [hself]
        simp only [commit, Atomic.goto, Function.update_self]
        refine ⟨some (apply t.op (m.mem (C.var t.op))).2, by simp [activity, onWord, hR.obj], ?_⟩
        simp only [hlink, hmem, Function.update_self, hw]
        exact hok'
      · simp only [commit, Atomic.goto, Function.update_of_ne hq]
        exact hothers q hq

theorem Outline.answers_exec (ho : Outline C apply Ok left bound) (hR : Refines C Ok m a) {p : P}
    {t : Activation R Op} {i : Instr R} (hp : m.call p = some t)
    (hi : (C.prog t.op)[t.frame.pc]? = some i) {f : CallFrame R} {x : Access}
    (hf : LoadLinked.exec (m.mem (C.var t.op)) (m.linked p (C.var t.op)) t.frame i = (f, x)) :
    Answers (Atomic.step (onWord C apply)) (Refines C Ok) a []
      ((m.goto p (some { t with frame := f })).access p (C.var t.op) x) := by
  rcases ho.exec_cases hR hp hi hf with ⟨_, hR', _⟩ | ⟨hact, hR'⟩
  · exact ⟨a, hR', .inl ⟨rfl, rfl⟩⟩
  · have hact' : a.activity p = .called t.id t.op := hact
    exact ⟨_, hR', .inr ⟨.commit p, by simp [Atomic.step, hact', commit]⟩⟩

theorem Outline.answers_lose (ho : Outline C apply Ok left bound) (hR : Refines C Ok m a) (p : P) :
    Answers (Atomic.step (onWord C apply)) (Refines C Ok) a []
      { m with link := Function.update m.link p none } := by
  refine ⟨a, ⟨hR.obj, hR.next, ?_⟩, .inl ⟨rfl, rfl⟩⟩
  intro q
  refine ho.other (hR.calls q) ?_
  intro b
  by_cases hq : q = p
  · exact .inr (by simp [Machine.linked, hq])
  · exact .inl ⟨by simp [Machine.linked, hq], rfl⟩

theorem Outline.answers_ret (ho : Outline C apply Ok left bound) (hR : Refines C Ok m a) {p : P}
    {t : Activation R Op} (hp : m.call p = some t) (hend : t.frame.pc = (C.prog t.op).length) :
    Answers (Atomic.step (onWord C apply)) (Refines C Ok) a [.ret t.id p (C.value t.op t.frame.regs)]
      (m.goto p none) := by
  have hcall := hR.calls p
  rw [hp] at hcall
  obtain ⟨o, hact, hok⟩ := hcall
  obtain rfl := (ho t.op).ret o _ _ t.frame hok hend
  have hact' : a.activity p = .done t.id (C.value t.op t.frame.regs) := hact
  refine ⟨a.goto p .idle, ⟨hR.obj, hR.next, ?_⟩, .inr ⟨.ret p, by simp [Atomic.step, hact']⟩⟩
  intro q
  by_cases hq : q = p
  · subst hq
    simp [Machine.goto, Atomic.goto, Agrees]
  · simp only [Machine.goto, Atomic.goto, Function.update_of_ne hq]
    exact ho.other (hR.calls q) (fun b => .inl ⟨rfl, rfl⟩)

/-- Every step of the machine is one of the object whose calls take effect in one step, or none. -/
theorem Outline.answers (ho : Outline C apply Ok left bound) {c : Choice P R Op}
    {m' : Machine P A R Op} {e : List (Event P Op Ret)} (hR : Refines C Ok m a)
    (hstep : Machine.step C c m = some (e, m')) :
    Answers (Atomic.step (onWord C apply)) (Refines C Ok) a e m' := by
  obtain ⟨p, op, regs, rfl, hp, rfl, rfl⟩ | ⟨p, t, i, r, rfl, hp, hi, rfl, rfl, rfl⟩ |
    ⟨p, rfl, rfl, rfl⟩ | ⟨p, t, rfl, hp, hend, rfl, rfl⟩ := Machine.step_cases hstep
  · exact ho.answers_call hR hp op regs
  · exact ho.answers_exec hR hp hi rfl
  · exact ho.answers_lose hR p
  · exact ho.answers_ret hR hp hend

omit [DecidableEq P] [DecidableEq R] in
theorem refines_start (mem : A → BitVec 32) (link : P → Option A) :
    Refines C Ok (Machine.start mem link) (Atomic.start mem) :=
  ⟨rfl, rfl, fun _ => rfl⟩

/-- **Each call takes effect in one step.** -/
theorem Outline.simulates (ho : Outline C apply Ok left bound) {mem : A → BitVec 32}
    {link : P → Option A} {h : List (Event P Op Ret)}
    (hrun : Run (Machine.step C) (Machine.start mem link) h m) :
    ∃ a, Refines C Ok m a ∧ Run (Atomic.step (onWord C apply)) (Atomic.start mem) h a := by
  refine hrun.simulates (refines_start mem link) ?_
  intro c s e s' t hR hstep
  exact ho.answers hR hstep

/-- With clients, each call takes effect in one step. -/
theorem Outline.simulates_withClients (ho : Outline C apply Ok left bound) {mem : A → BitVec 32}
    {link : P → Option A} {lam : Type} {react : Event P Op Ret → lam → Option lam} {l₀ l : lam}
    {h : List (Event P Op Ret)}
    (hrun : Run (withClients (Machine.step C) react) (Machine.start mem link, l₀) h (m, l)) :
    ∃ a, Refines C Ok m a ∧
      Run (withClients (Atomic.step (onWord C apply)) react) (Atomic.start mem, l₀) h (a, l) := by
  refine hrun.simulates_withClients (refines_start mem link) ?_
  intro c s e s' a hR hstep
  exact ho.answers hR hstep

/-- **All histories are linearizable.** -/
theorem Outline.linearizable (ho : Outline C apply Ok left bound) {mem : A → BitVec 32}
    {link : P → Option A} {h : List (Event P Op Ret)}
    (hrun : Run (Machine.step C) (Machine.start mem link) h m) :
    ∃ order, Linearization (onWord C apply) mem m.mem h order := by
  obtain ⟨a, hR, ha⟩ := ho.simulates hrun
  obtain ⟨order, hi⟩ := Atomic.linearizable ha
  exact ⟨order, hR.obj ▸ hi.lin⟩

end Steps

/-! ### Lock-freedom -/

namespace Choice

/-- The choice is the execution of an instruction. -/
def isExec : Choice P R Op → Bool
  | .exec _ => true
  | _ => false

/-- The choice is the loss of a link. -/
def isLose : Choice P R Op → Bool
  | .lose _ => true
  | _ => false

end Choice

variable [Fintype P]

/-- How many instructions processor `p` can execute before its call returns; before it has taken effect
one more round for every processor that may come first. -/
def weight (C : Code A R Op Ret) (left : Op → Option Ret → Bool → CallFrame R → ℕ) (bound : ℕ)
    (m : Machine P A R Op) (a : Atomic P (A → BitVec 32) Op Ret) (p : P) : ℕ :=
  match m.call p, a.activity p with
  | some t, .done _ r => left t.op (some r) (m.linked p (C.var t.op)) t.frame
  | some t, _ => bound * Fintype.card P + 1 + left t.op none (m.linked p (C.var t.op)) t.frame
  | none, _ => bound * Fintype.card P + 1 + bound

/-- The weights of all processors. -/
def potential (C : Code A R Op Ret) (left : Op → Option Ret → Bool → CallFrame R → ℕ) (bound : ℕ)
    (m : Machine P A R Op) (a : Atomic P (A → BitVec 32) Op Ret) : ℕ :=
  ∑ p, weight C left bound m a p

theorem Outline.weight_le (ho : Outline C apply Ok left bound) (p : P) :
    weight C left bound m a p ≤ bound * Fintype.card P + 1 + bound := by
  rw [weight]
  split
  · next t i r _ _ => exact ((ho t.op).bounded (some r) _ t.frame).trans (by omega)
  · next t _ _ => exact Nat.add_le_add_left ((ho t.op).bounded none _ t.frame) _
  · exact le_rfl

theorem Outline.potential_le (ho : Outline C apply Ok left bound) :
    potential C left bound m a ≤ Fintype.card P * (bound * Fintype.card P + 1 + bound) := by
  rw [potential]
  exact (Finset.sum_le_card_nsmul _ _ _ fun p _ => ho.weight_le p).trans_eq (by simp)

/-- The weight of a processor that stays at its instruction. -/
theorem Outline.weight_other (ho : Outline C apply Ok left bound) {m' : Machine P A R Op}
    {a' : Atomic P (A → BitVec 32) Op Ret} {q : P} (hcall : m'.call q = m.call q)
    (hact : a'.activity q = a.activity q) :
    weight C left bound m' a' q ≤ weight C left bound m a q + bound := by
  rw [weight, weight, hcall, hact]
  cases m.call q with
  | none => exact Nat.le_add_right _ _
  | some t =>
    cases a.activity q with
    | done i r => exact ((ho t.op).bounded (some r) _ t.frame).trans (Nat.le_add_left _ _)
    | idle =>
      have := (ho t.op).bounded none (m'.linked q (C.var t.op)) t.frame
      simp only
      omega
    | called i op =>
      have := (ho t.op).bounded none (m'.linked q (C.var t.op)) t.frame
      simp only
      omega

omit [DecidableEq R] in
/-- The weight of a processor in a call. -/
theorem weight_eq {p : P} {t : Activation R Op} {o : Option Ret} (hp : m.call p = some t)
    (hact : a.activity p = activity t o) :
    weight C left bound m a p =
      (if o.isNone then bound * Fintype.card P + 1 else 0) +
        left t.op o (m.linked p (C.var t.op)) t.frame := by
  rw [weight, hp, hact]
  cases o with
  | none => rfl
  | some r => exact (Nat.zero_add _).symm

variable [DecidableEq P]

omit [DecidableEq R] in
/-- An instruction that brings its call closer to the end. -/
theorem potential_lt_of_left {p : P} {t : Activation R Op} {f : CallFrame R} {x : Access} {o : Option Ret}
    (hp : m.call p = some t) (hno : x.stores = false) (hact : a.activity p = activity t o)
    (hleft : left t.op o (x.linked (m.linked p (C.var t.op))) f <
      left t.op o (m.linked p (C.var t.op)) t.frame) :
    potential C left bound ((m.goto p (some { t with frame := f })).access p (C.var t.op) x) a <
      potential C left bound m a := by
  set m' := (m.goto p (some { t with frame := f })).access p (C.var t.op) x with hm'
  have hself : m'.call p = some { t with frame := f } := by simp [hm', Machine.goto]
  have hlink : m'.linked p (C.var t.op) = x.linked (m.linked p (C.var t.op)) := Machine.access_linked
  have hless : weight C left bound m' a p < weight C left bound m a p := by
    rw [weight_eq hself hact, weight_eq hp hact, hlink]
    exact Nat.add_lt_add_left hleft _
  refine Finset.sum_lt_sum ?_ ⟨p, Finset.mem_univ p, hless⟩
  intro q _
  by_cases hq : q = p
  · exact hq ▸ hless.le
  · refine le_of_eq ?_
    have hc : m'.call q = m.call q := by simp [hm', Machine.goto, hq]
    have hl : ∀ b, m'.linked q b = m.linked q b := fun b =>
      Machine.access_linked_of_ne (m := m.goto p _) hq hno b
    simp only [weight, hc, hl]

/-- An instruction by which its call takes effect. -/
theorem Outline.potential_lt_of_commit (ho : Outline C apply Ok left bound) {p : P} {t : Activation R Op}
    {f : CallFrame R} {x : Access} (hp : m.call p = some t) (hact : a.activity p = activity t none) :
    potential C left bound ((m.goto p (some { t with frame := f })).access p (C.var t.op) x)
        (commit C apply p t a) <
      potential C left bound m a := by
  set m' := (m.goto p (some { t with frame := f })).access p (C.var t.op) x with hm'
  set a' := commit C apply p t a with ha'
  have hself : m'.call p = some { t with frame := f } := by simp [hm', Machine.goto]
  have hact' : a'.activity p = activity { t with frame := f } (some (onWord C apply t.op a.obj).2) := by
    simp [ha', commit, Atomic.goto, activity]
  have hbefore : bound * Fintype.card P + 1 ≤ weight C left bound m a p := by
    rw [weight_eq hp hact]
    exact Nat.le_add_right _ _
  have hafter : weight C left bound m' a' p ≤ bound := by
    rw [weight_eq hself hact']
    simpa using (ho t.op).bounded _ _ f
  -- each of the others may have to begin again
  have hothers : ∑ q ∈ Finset.univ.erase p, weight C left bound m' a' q ≤
      ∑ q ∈ Finset.univ.erase p, weight C left bound m a q + (Fintype.card P - 1) * bound := by
    have hle : ∀ q ∈ Finset.univ.erase p,
        weight C left bound m' a' q ≤ weight C left bound m a q + bound := by
      intro q hq
      have hq := Finset.ne_of_mem_erase hq
      exact ho.weight_other (by simp [hm', Machine.goto, hq]) (by simp [ha', commit, Atomic.goto, hq])
    refine (Finset.sum_le_sum hle).trans_eq ?_
    rw [Finset.sum_add_distrib, Finset.sum_const, Finset.card_erase_of_mem (Finset.mem_univ p),
      Finset.card_univ, smul_eq_mul]
  have hcard : 0 < Fintype.card P := Fintype.card_pos_iff.mpr ⟨p⟩
  have hround : (Fintype.card P - 1) * bound + bound = bound * Fintype.card P := by
    rw [← Nat.succ_mul, Nat.succ_eq_add_one, Nat.sub_add_cancel hcard, Nat.mul_comm]
  rw [potential, potential, ← Finset.add_sum_erase _ _ (Finset.mem_univ p),
    ← Finset.add_sum_erase (a := p) _ (weight C left bound m a) (Finset.mem_univ p)]
  omega

/-- One step that loses no link and returns from no call. -/
theorem Outline.potential_step (ho : Outline C apply Ok left bound) {c : Choice P R Op}
    {m' : Machine P A R Op} {e : List (Event P Op Ret)} (hR : Refines C Ok m a)
    (hstep : Machine.step C c m = some (e, m')) (hlose : c.isLose = false)
    (hret : ∀ i p r, .ret i p r ∉ e) :
    ∃ a', Refines C Ok m' a' ∧
      potential C left bound m' a' + (if c.isExec then 1 else 0) ≤ potential C left bound m a := by
  obtain ⟨p, op, regs, rfl, hp, rfl, rfl⟩ | ⟨p, t, i, r, rfl, hp, hi, rfl, rfl, rfl⟩ |
    ⟨p, rfl, rfl, rfl⟩ | ⟨p, t, rfl, hp, hend, rfl, rfl⟩ := Machine.step_cases hstep
  · -- the weight of a processor outside is that of the longest call
    have hidle : a.activity p = .idle := by
      have := hR.calls p
      rwa [hp] at this
    have hR' := ho.refines_call hR hp op regs
    refine ⟨_, hR', ?_⟩
    refine Finset.sum_le_sum ?_
    intro q _
    by_cases hq : q = p
    · subst hq
      rw [weight_eq (t := ⟨m.next, op, C.enter op regs, 0, 1⟩) (o := none) (by simp [Machine.goto])
        (by simp [Atomic.goto, activity, hR.next]), weight, hp]
      exact Nat.add_le_add_left ((ho op).bounded none _ _) _
    · refine le_of_eq ?_
      simp only [weight, Machine.goto, Atomic.goto, Function.update_of_ne hq]
      rfl
  · rcases ho.exec_cases hR hp hi rfl with ⟨hno, hR', o, hact, hleft⟩ | ⟨hact, hR'⟩
    · exact ⟨a, hR', potential_lt_of_left hp hno hact hleft⟩
    · exact ⟨_, hR', ho.potential_lt_of_commit hp hact⟩
  · simp [Choice.isLose] at hlose
  · exact absurd (List.mem_singleton.mpr rfl) (hret _ _ _)

/-- **Some call returns**, when enough instructions are executed and no link is lost except to stores. -/
theorem Outline.lock_free (ho : Outline C apply Ok left bound) {cs : List (Choice P R Op)}
    {m' : Machine P A R Op} {h : List (Event P Op Ret)} (hR : Refines C Ok m a)
    (hplay : play (Machine.step C) cs m = some (h, m')) (hlose : ∀ c ∈ cs, c.isLose = false)
    (hlong : potential C left bound m a < cs.countP Choice.isExec) : ∃ i p r, .ret i p r ∈ h := by
  induction cs generalizing m a h with
  | nil => simp at hlong
  | cons c cs ih =>
    obtain ⟨e, m₁, h', hstep, hrest, rfl⟩ := play_cons_eq_some.mp hplay
    by_cases hret : ∃ i p r, .ret i p r ∈ e
    · obtain ⟨i, p, r, hmem⟩ := hret
      exact ⟨i, p, r, List.mem_append_left _ hmem⟩
    · simp only [not_exists] at hret
      obtain ⟨a', hR', hpot⟩ := ho.potential_step hR hstep (hlose c (List.mem_cons_self ..)) hret
      rw [List.countP_cons] at hlong
      obtain ⟨i, p, r, hmem⟩ := ih hR' hrest (fun d hd => hlose d (List.mem_cons_of_mem _ hd)) (by omega)
      exact ⟨i, p, r, List.mem_append_right _ hmem⟩

end Outline

end LoadLinked
