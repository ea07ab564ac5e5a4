import Mathlib

/-!
# Computations that can fault or run out of steps

`Outcome ε α` is the result of running imperative code for a bounded number of loop iterations: a
value, a fault `ε`, or `timeout` when the bound was too small.  It is a monad, so a function of the
source becomes one `do` block.

* `Yields o Q` — total correctness: `o` is a value and the value satisfies `Q`.  The rules
  `yields_ok`, `Yields.bind` and `Yields.mono` take a block apart one statement at a time.
* `loop body fuel s` — at most `fuel` iterations of `body`, which either goes on with a new state or
  leaves the loop with a result.
* `Returns f a` — every large enough bound on the loops gives `a`.  The rules of `Steady` show that a
  value, once it is there, does not depend on the bound.
-/

universe u v

/-- A value, a fault, or not finished within the allowed number of iterations. -/
inductive Outcome (ε : Type u) (α : Type v) where
  | ok (a : α)
  | fault (e : ε)
  | timeout
  deriving DecidableEq

namespace Outcome

variable {ε : Type u} {α β σ : Type v}

/-- Run `f` on the value, if there is one. -/
protected def bind (o : Outcome ε α) (f : α → Outcome ε β) : Outcome ε β :=
  match o with
  | ok a => f a
  | fault e => fault e
  | timeout => timeout

instance : Monad (Outcome ε) where
  pure := ok
  bind := Outcome.bind

@[simp] theorem pure_eq (a : α) : (pure a : Outcome ε α) = ok a := (rfl)

@[simp] theorem ok_bind (a : α) (f : α → Outcome ε β) : (ok a >>= f) = f a := (rfl)

@[simp] theorem fault_bind (e : ε) (f : α → Outcome ε β) : (fault e >>= f) = fault e := (rfl)

@[simp] theorem timeout_bind (f : α → Outcome ε β) : ((timeout : Outcome ε α) >>= f) = timeout := (rfl)

/-- A block that gave a value gave one in each of its statements. -/
theorem bind_eq_ok {o : Outcome ε α} {f : α → Outcome ε β} {b : β} :
    (o >>= f) = ok b ↔ ∃ a, o = ok a ∧ f a = ok b := by
  cases o with
  | ok a => simp
  | fault e => simp
  | timeout => simp

/-! ### Total correctness -/

/-- The computation ends with a value that satisfies `Q`. -/
def Yields (o : Outcome ε α) (Q : α → Prop) : Prop := ∃ a, o = ok a ∧ Q a

theorem yields_ok {a : α} {Q : α → Prop} (h : Q a) : (ok a : Outcome ε α).Yields Q := ⟨a, rfl, h⟩

theorem Yields.bind {o : Outcome ε α} {f : α → Outcome ε β} {Q : α → Prop} {R : β → Prop}
    (h : o.Yields Q) (hf : ∀ a, Q a → (f a).Yields R) : (o >>= f).Yields R := by
  obtain ⟨a, rfl, ha⟩ := h
  exact hf a ha

theorem Yields.mono {o : Outcome ε α} {Q R : α → Prop} (h : o.Yields Q) (hQR : ∀ a, Q a → R a) :
    o.Yields R := by
  obtain ⟨a, rfl, ha⟩ := h
  exact ⟨a, rfl, hQR a ha⟩

/-- A computation with a bound on its loops returns `a`: every large enough bound gives `a`. -/
def Returns (f : ℕ → Outcome ε α) (a : α) : Prop := ∃ n, ∀ fuel, n ≤ fuel → f fuel = ok a

theorem Returns.unique {f : ℕ → Outcome ε α} {a b : α} (ha : Returns f a) (hb : Returns f b) :
    a = b := by
  obtain ⟨n, hn⟩ := ha
  obtain ⟨k, hk⟩ := hb
  have h := (hn (max n k) (le_max_left n k)).symm.trans (hk (max n k) (le_max_right n k))
  injection h

/-- The parts of a block return, and so does the block. -/
theorem Returns.bind {f : ℕ → Outcome ε α} {g : ℕ → α → Outcome ε β} {a : α} {b : β}
    (hf : Returns f a) (hg : Returns (fun n => g n a) b) : Returns (fun n => f n >>= g n) b := by
  obtain ⟨n, hn⟩ := hf
  obtain ⟨k, hk⟩ := hg
  refine ⟨max n k, fun fuel hfuel => ?_⟩
  show (f fuel >>= g fuel) = ok b
  rw [hn fuel (by omega), ok_bind]
  exact hk fuel (by omega)

/-- A value that does not depend on the bound. -/
theorem returns_const {o : Outcome ε α} {a : α} (h : o = ok a) : Returns (fun _ => o) a := ⟨0, fun _ _ => h⟩

/-- Every bound from `m` on gives the value. -/
theorem returns_of_add {f : ℕ → Outcome ε α} {a : α} (m : ℕ) (h : ∀ n, f (n + m) = ok a) :
    Returns f a := by
  refine ⟨m, fun fuel hfuel => ?_⟩
  rw [← Nat.sub_add_cancel hfuel]
  exact h _

/-! ### Loops -/

/-- At most `fuel` iterations of `body`: `inl s'` goes on from `s'`, `inr b` leaves the loop. -/
def loop (body : σ → Outcome ε (σ ⊕ β)) : ℕ → σ → Outcome ε β
  | 0, _ => timeout
  | fuel + 1, s => do
    match ← body s with
    | .inl s' => loop body fuel s'
    | .inr b => return b

/-- One iteration that goes on. -/
theorem loop_next {body : σ → Outcome ε (σ ⊕ β)} {s s' : σ} (h : body s = ok (.inl s'))
    (fuel : ℕ) : loop body (fuel + 1) s = loop body fuel s' := by
  simp [loop, h]

/-- The iteration that leaves. -/
theorem loop_exit {body : σ → Outcome ε (σ ⊕ β)} {s : σ} {b : β} (h : body s = ok (.inr b))
    (fuel : ℕ) : loop body (fuel + 1) s = ok b := by
  simp [loop, h]

/-! ### The bound on the loops -/

/-- A value of a computation does not depend on the bound: a larger bound gives the same. -/
def Steady (f : ℕ → Outcome ε α) : Prop := ∀ n m a, n ≤ m → f n = ok a → f m = ok a

theorem steady_const (o : Outcome ε α) : Steady fun _ => o := fun _ _ _ _ h => h

theorem Steady.bind {f : ℕ → Outcome ε α} {g : ℕ → α → Outcome ε β} (hf : Steady f)
    (hg : ∀ a, Steady fun n => g n a) : Steady fun n => f n >>= g n := by
  intro n m b hnm h
  obtain ⟨a, ha, hb⟩ := bind_eq_ok.mp h
  exact bind_eq_ok.mpr ⟨a, hf n m a hnm ha, hg a n m b hnm hb⟩

theorem Steady.ite {p : Prop} [Decidable p] {f g : ℕ → Outcome ε α} (hf : Steady f)
    (hg : Steady g) : Steady fun n => if p then f n else g n := by
  by_cases h : p
  · simpa [h] using hf
  · simpa [h] using hg

theorem steady_loop (body : σ → Outcome ε (σ ⊕ β)) (s : σ) : Steady fun n => loop body n s := by
  intro n m b hnm h
  induction n generalizing s m with
  | zero => cases h
  | succ n ih =>
    obtain ⟨m, rfl⟩ : ∃ k, m = k + 1 := ⟨m - 1, by omega⟩
    simp only [loop] at h ⊢
    obtain ⟨r, hr, hrest⟩ := bind_eq_ok.mp h
    rw [hr, ok_bind]
    cases r with
    | inl s' => exact ih s' m (by omega) hrest
    | inr b' => exact hrest

/-- A steady computation that ends for some bound returns. -/
theorem Steady.returns {f : ℕ → Outcome ε α} (hf : Steady f) {n : ℕ} {Q : α → Prop}
    (h : (f n).Yields Q) : ∃ a, Returns f a ∧ Q a := by
  obtain ⟨a, ha, hQ⟩ := h
  exact ⟨a, ⟨n, fun m hm => hf n m a hm ha⟩, hQ⟩

end Outcome
