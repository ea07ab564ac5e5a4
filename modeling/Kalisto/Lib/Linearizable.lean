import Mathlib.Algebra.Order.BigOperators.Group.List
import Mathlib.Algebra.Order.Ring.Nat
import Mathlib.Data.List.Nodup
import Mathlib.Data.List.Sublists
import Mathlib.Logic.Function.Basic

/-!
# Linearizability

Processes call the operations of a shared object; a history is the list of calls and returns as the
clients see them.  A history is linearizable when the calls can be put into one sequence that

* contains each call at most once, and every call that has returned, with the value it returned;
* is a run of the object on its own;
* keeps the order of every two calls of which the first returned before the second began.

A labelled transition function gives the histories of a system.

* `Run.simulates` — a forward simulation: the histories of one system are histories of another;
* `Atomic.linearizable` — the object whose calls take effect in one step each.
-/

namespace Linearizability

/-! ### Labelled transitions -/

section Lts

variable {χ κ ε σ τ : Type}

/-- What is seen of a system that makes one choice after the other. -/
inductive Run (step : χ → σ → Option (List ε × σ)) (s₀ : σ) : List ε → σ → Prop
  | refl : Run step s₀ [] s₀
  | tail {h e : List ε} {s s' : σ} (c : χ) (hrun : Run step s₀ h s) (hstep : step c s = some (e, s')) :
      Run step s₀ (h ++ e) s'

/-- Make the choices of a list. -/
def play (step : χ → σ → Option (List ε × σ)) : List χ → σ → Option (List ε × σ)
  | [], s => some ([], s)
  | c :: cs, s => do
    let p ← step c s
    let q ← play step cs p.2
    return (p.1 ++ q.1, q.2)

variable {step : χ → σ → Option (List ε × σ)} {stepT : κ → τ → Option (List ε × τ)}

theorem play_cons_eq_some {c : χ} {cs : List χ} {s s' : σ} {h : List ε} :
    play step (c :: cs) s = some (h, s') ↔
      ∃ e s₁ h', step c s = some (e, s₁) ∧ play step cs s₁ = some (h', s') ∧ h = e ++ h' := by
  simp only [play, Option.bind_eq_bind, Option.bind_eq_some_iff, Option.pure_def, Option.some.injEq,
    Prod.mk.injEq, Prod.exists]
  constructor
  · rintro ⟨e, s₁, hstep, h', s₂, hplay, rfl, rfl⟩
    exact ⟨e, s₁, h', hstep, hplay, rfl⟩
  · rintro ⟨e, s₁, h', hstep, hplay, rfl⟩
    exact ⟨e, s₁, hstep, h', s', hplay, rfl, rfl⟩

/-- The choices of a list make a run. -/
theorem Run.of_play {cs : List χ} {s₀ s s' : σ} {h h' : List ε} (hrun : Run step s₀ h s)
    (hplay : play step cs s = some (h', s')) : Run step s₀ (h ++ h') s' := by
  induction cs generalizing h s h' with
  | nil =>
    obtain ⟨rfl, rfl⟩ : [] = h' ∧ s = s' := by simpa [play] using hplay
    simpa using hrun
  | cons c cs ih =>
    obtain ⟨e, s₁, h₁, hstep, hrest, rfl⟩ := play_cons_eq_some.mp hplay
    rw [← List.append_assoc]
    exact ih (hrun.tail c hstep) hrest

/-- What one step of the first system is answered with by the second. -/
def Answers (stepT : κ → τ → Option (List ε × τ)) (R : σ → τ → Prop) (t : τ) (e : List ε) (s' : σ) :
    Prop :=
  ∃ t', R s' t' ∧ ((e = [] ∧ t' = t) ∨ ∃ c, stepT c t = some (e, t'))

/-- **Forward simulation.** -/
theorem Run.simulates {R : σ → τ → Prop} {s₀ : σ} {t₀ : τ} (h₀ : R s₀ t₀)
    (hstep : ∀ c s e s' t, R s t → step c s = some (e, s') → Answers stepT R t e s')
    {h : List ε} {s : σ} (hrun : Run step s₀ h s) : ∃ t, R s t ∧ Run stepT t₀ h t := by
  induction hrun with
  | refl => exact ⟨t₀, h₀, .refl⟩
  | tail c _ hs ih =>
    obtain ⟨t, hR, ht⟩ := ih
    obtain ⟨t', hR', ⟨rfl, rfl⟩ | ⟨c', hc⟩⟩ := hstep c _ _ _ t hR hs
    · exact ⟨t', hR', by simpa using ht⟩
    · exact ⟨t', hR', ht.tail c' hc⟩

/-! ### Clients -/

variable {lam : Type}

/-- The system with clients: in the state `l` of the clients the event `e` can happen if `react e l` is
their next state. -/
def withClients (step : χ → σ → Option (List ε × σ)) (react : ε → lam → Option lam) (c : χ)
    (s : σ × lam) : Option (List ε × (σ × lam)) := do
  let p ← step c s.1
  let l ← p.1.foldlM (fun l e => react e l) s.2
  return (p.1, (p.2, l))

theorem withClients_eq_some {react : ε → lam → Option lam} {c : χ} {s s' : σ} {l l' : lam} {e : List ε} :
    withClients step react c (s, l) = some (e, (s', l')) ↔
      step c s = some (e, s') ∧ e.foldlM (fun l e => react e l) l = some l' := by
  simp only [withClients, Option.bind_eq_bind, Option.bind_eq_some_iff, Option.pure_def,
    Option.some.injEq, Prod.mk.injEq, Prod.exists]
  constructor
  · rintro ⟨e, s', hstep, l', hl, rfl, rfl, rfl⟩
    exact ⟨hstep, hl⟩
  · rintro ⟨hstep, hl⟩
    exact ⟨e, s', hstep, l', hl, rfl, rfl, rfl⟩

/-- A simulation is one for all clients. -/
theorem Answers.withClients {R : σ → τ → Prop} {react : ε → lam → Option lam} {t : τ} {e : List ε} {s' : σ}
    {l l' : lam} (h : Answers stepT R t e s') (hl : e.foldlM (fun l e => react e l) l = some l') :
    Answers (withClients stepT react) (fun s t => R s.1 t.1 ∧ s.2 = t.2) (t, l) e (s', l') := by
  obtain ⟨t', hR, ⟨rfl, rfl⟩ | ⟨c, hc⟩⟩ := h
  · obtain rfl : l = l' := by simpa using hl
    exact ⟨(t', l), ⟨hR, rfl⟩, .inl ⟨rfl, rfl⟩⟩
  · exact ⟨(t', l'), ⟨hR, rfl⟩, .inr ⟨c, withClients_eq_some.mpr ⟨hc, hl⟩⟩⟩

/-- The clients of the first system could be clients of the second. -/
theorem Run.simulates_withClients {R : σ → τ → Prop} {react : ε → lam → Option lam} {s₀ : σ} {t₀ : τ}
    {l₀ : lam} (h₀ : R s₀ t₀)
    (hstep : ∀ c s e s' t, R s t → step c s = some (e, s') → Answers stepT R t e s')
    {h : List ε} {s : σ} {l : lam} (hrun : Run (withClients step react) (s₀, l₀) h (s, l)) :
    ∃ t, R s t ∧ Run (withClients stepT react) (t₀, l₀) h (t, l) := by
  have hsim : ∃ t : τ × lam, (R s t.1 ∧ l = t.2) ∧ Run (Linearizability.withClients stepT react) (t₀, l₀) h t := by
    refine hrun.simulates (R := fun (s : σ × lam) (t : τ × lam) => R s.1 t.1 ∧ s.2 = t.2) ⟨h₀, rfl⟩ ?_
    rintro c ⟨s, l⟩ e ⟨s', l'⟩ ⟨t, l₁⟩ ⟨hR, rfl⟩ hs
    obtain ⟨hs, hl⟩ := withClients_eq_some.mp hs
    exact (hstep c s e s' t hR hs).withClients hl
  obtain ⟨⟨t, _⟩, ⟨hR, rfl⟩, ht⟩ := hsim
  exact ⟨t, hR, ht⟩

end Lts

/-! ### Histories -/

section Histories

variable {P Op Ret S : Type}

/-- The call number `i`, by process `p`, and its return. -/
inductive Event (P Op Ret : Type) where
  | call (i : ℕ) (p : P) (op : Op)
  | ret (i : ℕ) (p : P) (r : Ret)
  deriving DecidableEq, Repr

/-- A call with the value it returns. -/
structure Effect (Op Ret : Type) where
  id : ℕ
  op : Op
  ret : Ret
  deriving DecidableEq, Repr

/-- The calls take the object from one state to the other, one after the other. -/
def Legal (apply : Op → S → S × Ret) : S → List (Effect Op Ret) → S → Prop
  | s, [], s' => s' = s
  | s, e :: es, s' => e.ret = (apply e.op s).2 ∧ Legal apply (apply e.op s).1 es s'

/-- Whether an event is a return, and the number of its call. -/
def Event.tag : Event P Op Ret → Bool × ℕ
  | .call i _ _ => (false, i)
  | .ret i _ _ => (true, i)

/-- **The calls of `h` in one sequence.** -/
structure Linearization (apply : Op → S → S × Ret) (s₀ s : S) (h : List (Event P Op Ret))
    (order : List (Effect Op Ret)) : Prop where
  /-- A number is the number of one call, which returns once. -/
  wellFormed : (h.map Event.tag).Nodup
  nodup : (order.map Effect.id).Nodup
  legal : Legal apply s₀ order s
  called : ∀ e ∈ order, ∃ p, .call e.id p e.op ∈ h
  returned : ∀ i p r, .ret i p r ∈ h → ∃ op, .call i p op ∈ h ∧ ⟨i, op, r⟩ ∈ order
  realTime : ∀ i p r j q op, [.ret i p r, .call j q op].Sublist h → j ∈ order.map Effect.id →
    [i, j].Sublist (order.map Effect.id)

variable {apply : Op → S → S × Ret}

theorem legal_append {s s' : S} {es fs : List (Effect Op Ret)} :
    Legal apply s (es ++ fs) s' ↔ ∃ s₁, Legal apply s es s₁ ∧ Legal apply s₁ fs s' := by
  induction es generalizing s with
  | nil => simp [Legal]
  | cons e es ih => simp [Legal, ih, and_assoc]

theorem Legal.snoc {s₀ s : S} {es : List (Effect Op Ret)} (h : Legal apply s₀ es s) (i : ℕ) (op : Op) :
    Legal apply s₀ (es ++ [⟨i, op, (apply op s).2⟩]) (apply op s).1 :=
  legal_append.mpr ⟨s, h, rfl, rfl⟩

theorem pair_sublist_snoc {α : Type} {a b c : α} {l : List α} :
    [a, b].Sublist (l ++ [c]) ↔ [a, b].Sublist l ∨ a ∈ l ∧ b = c := by
  constructor
  · intro h
    obtain ⟨l₁, l₂, hl, h₁, h₂⟩ := List.sublist_append_iff.mp h
    match l₂, List.sublist_singleton.mp h₂ with
    | _, .inl rfl =>
      rw [List.append_nil] at hl
      exact .inl (hl ▸ h₁)
    | _, .inr rfl =>
      obtain ⟨rfl, hb⟩ := List.append_inj' (show [a] ++ [b] = l₁ ++ [c] from hl) rfl
      exact .inr ⟨by simpa using h₁, by simpa using hb⟩
  · rintro (h | ⟨ha, rfl⟩)
    · exact h.trans (List.sublist_append_left _ _)
    · exact List.Sublist.append (List.singleton_sublist.mpr ha) (List.Sublist.refl [b])

/-- A number names its call. -/
theorem Linearization.unique {s₀ s : S} {h : List (Event P Op Ret)} {order : List (Effect Op Ret)}
    (hl : Linearization apply s₀ s h order) {i : ℕ} {p q : P} {op op' : Op} (h₁ : .call i p op ∈ h)
    (h₂ : .call i q op' ∈ h) : p = q ∧ op = op' := by
  have heq := List.inj_on_of_nodup_map hl.wellFormed h₁ h₂ rfl
  injection heq with _ hp hop
  exact ⟨hp, hop⟩

/-- A linearized call was called. -/
theorem Linearization.exists_call {s₀ s : S} {h : List (Event P Op Ret)} {order : List (Effect Op Ret)}
    (hl : Linearization apply s₀ s h order) {i : ℕ} (hi : i ∈ order.map Effect.id) :
    ∃ p op, .call i p op ∈ h := by
  obtain ⟨e, he, rfl⟩ := List.mem_map.mp hi
  obtain ⟨p, hp⟩ := hl.called e he
  exact ⟨p, e.op, hp⟩

/-- A call that has returned is linearized. -/
theorem Linearization.mem_of_ret {s₀ s : S} {h : List (Event P Op Ret)} {order : List (Effect Op Ret)}
    (hl : Linearization apply s₀ s h order) {i : ℕ} {p : P} {r : Ret} (hr : .ret i p r ∈ h) :
    i ∈ order.map Effect.id := by
  obtain ⟨op, _, he⟩ := hl.returned i p r hr
  exact List.mem_map.mpr ⟨_, he, rfl⟩

/-! ### The calls of a history -/

/-- A call with its number. -/
def Event.callOf : Event P Op Ret → Option (ℕ × Op)
  | .call i _ op => some (i, op)
  | .ret _ _ _ => none

/-- The calls of a history. -/
def calls (h : List (Event P Op Ret)) : List (ℕ × Op) := h.filterMap Event.callOf

/-- An effect without the value. -/
def Effect.call (e : Effect Op Ret) : ℕ × Op := (e.id, e.op)

theorem mem_calls {h : List (Event P Op Ret)} {i : ℕ} {op : Op} :
    (i, op) ∈ calls h ↔ ∃ p, .call i p op ∈ h := by
  rw [calls, List.mem_filterMap]
  constructor
  · rintro ⟨e, he, heq⟩
    cases e with
    | call j p op' =>
      obtain ⟨rfl, rfl⟩ : j = i ∧ op' = op := by simpa [Event.callOf] using heq
      exact ⟨p, he⟩
    | ret j p r => exact nomatch heq
  · rintro ⟨p, hp⟩
    exact ⟨_, hp, rfl⟩

section Calls

variable {s₀ s : S} {h : List (Event P Op Ret)} {order : List (Effect Op Ret)}

theorem calls_tags (h : List (Event P Op Ret)) :
    ((calls h).map fun c => (false, c.1)).Sublist (h.map Event.tag) := by
  induction h with
  | nil => exact List.Sublist.refl _
  | cons e h ih =>
    cases e with
    | call i p op => simpa [calls, Event.callOf, Event.tag] using ih
    | ret i p r => exact ih.trans (List.sublist_cons_self ..)

theorem Linearization.nodup_calls (hl : Linearization apply s₀ s h order) : (calls h).Nodup :=
  List.Nodup.of_map _ (hl.wellFormed.sublist (calls_tags h))

theorem Linearization.nodup_effects (hl : Linearization apply s₀ s h order) :
    (order.map Effect.call).Nodup :=
  List.Nodup.of_map Prod.fst (by simpa [Function.comp_def, Effect.call] using hl.nodup)

theorem Linearization.subset_calls (hl : Linearization apply s₀ s h order) :
    order.map Effect.call ⊆ calls h := by
  intro c hc
  obtain ⟨e, he, rfl⟩ := List.mem_map.mp hc
  exact mem_calls.mpr (hl.called e he)

/-- A bound for sums over the calls that have taken effect. -/
theorem Linearization.sum_le (hl : Linearization apply s₀ s h order) (f : Op → ℕ) :
    (order.map fun e => f e.op).sum ≤ ((calls h).map fun c => f c.2).sum := by
  obtain ⟨l, hperm, hsub⟩ := hl.nodup_effects.subperm hl.subset_calls
  have hsum : (order.map fun e => f e.op).sum = (l.map fun c => f c.2).sum := by
    rw [(hperm.map fun c => f c.2).sum_nat, List.map_map]
    rfl
  rw [hsum]
  exact (hsub.map _).sum_le_sum fun _ _ => Nat.zero_le _

/-- As many calls of a kind have taken effect as were called. -/
theorem Linearization.countP_le (hl : Linearization apply s₀ s h order) (q : Op → Bool) :
    order.countP (fun e => q e.op) ≤ (calls h).countP fun c => q c.2 := by
  have hle := (hl.nodup_effects.subperm hl.subset_calls).countP_le fun c => q c.2
  rwa [List.countP_map] at hle

/-- The calls with `q` have taken effect once all of them have returned. -/
theorem Linearization.perm (hl : Linearization apply s₀ s h order) (q : Op → Bool)
    (hret : ∀ i op, (i, op) ∈ calls h → q op = true → ∃ p r, .ret i p r ∈ h) :
    ((order.map Effect.call).filter fun c => q c.2).Perm ((calls h).filter fun c => q c.2) := by
  refine (List.perm_ext_iff_of_nodup (hl.nodup_effects.filter _) (hl.nodup_calls.filter _)).mpr ?_
  rintro ⟨i, op⟩
  rw [List.mem_filter, List.mem_filter]
  constructor
  · rintro ⟨hmem, hq⟩
    exact ⟨hl.subset_calls hmem, hq⟩
  · rintro ⟨hmem, hq⟩
    obtain ⟨p, r, hr⟩ := hret i op hmem hq
    obtain ⟨op', hc, he⟩ := hl.returned i p r hr
    obtain ⟨p', hc'⟩ := mem_calls.mp hmem
    obtain ⟨-, rfl⟩ := hl.unique hc hc'
    exact ⟨List.mem_map.mpr ⟨_, he, rfl⟩, hq⟩

end Calls

/-! ### How a linearization grows -/

section Growth

variable {s₀ s : S} {h : List (Event P Op Ret)} {order : List (Effect Op Ret)}

/-- The call with a new number. -/
theorem Linearization.call (hl : Linearization apply s₀ s h order) {n : ℕ}
    (hnew : ∀ e ∈ h, e.tag.2 < n) (p : P) (op : Op) :
    Linearization apply s₀ s (h ++ [.call n p op]) order where
  wellFormed := by
    rw [List.map_append, List.nodup_append]
    refine ⟨hl.wellFormed, List.nodup_singleton _, ?_⟩
    intro t ht u hu heq
    obtain ⟨e, he, rfl⟩ := List.mem_map.mp ht
    obtain rfl := List.mem_singleton.mp hu
    have := hnew e he
    rw [heq] at this
    exact Nat.lt_irrefl n this
  nodup := hl.nodup
  legal := hl.legal
  called := by
    intro e he
    obtain ⟨q, hq⟩ := hl.called e he
    exact ⟨q, List.mem_append_left _ hq⟩
  returned := by
    intro i q r hr
    have hr : .ret i q r ∈ h := by simpa using hr
    obtain ⟨op', hc, he⟩ := hl.returned i q r hr
    exact ⟨op', List.mem_append_left _ hc, he⟩
  realTime := by
    intro i q r j q' op' hsub hj
    rcases pair_sublist_snoc.mp hsub with hsub | ⟨_, heq⟩
    · exact hl.realTime i q r j q' op' hsub hj
    · -- the new call is not linearized
      obtain ⟨q'', op'', hc⟩ := hl.exists_call hj
      have := hnew _ hc
      injection heq with hjn
      simp only [Event.tag] at this
      omega

/-- A call takes effect. -/
theorem Linearization.commit (hl : Linearization apply s₀ s h order) {i : ℕ} {p : P} {op : Op}
    (hc : .call i p op ∈ h) (hi : i ∉ order.map Effect.id) :
    Linearization apply s₀ (apply op s).1 h (order ++ [⟨i, op, (apply op s).2⟩]) where
  wellFormed := hl.wellFormed
  nodup := by
    rw [List.map_append, List.nodup_append]
    refine ⟨hl.nodup, List.nodup_singleton _, ?_⟩
    intro j hj k hk heq
    obtain rfl := List.mem_singleton.mp hk
    exact hi (heq ▸ hj)
  legal := hl.legal.snoc i op
  called := by
    intro e he
    rcases List.mem_append.mp he with he | he
    · exact hl.called e he
    · obtain rfl := List.mem_singleton.mp he
      exact ⟨p, hc⟩
  returned := by
    intro j q r hr
    obtain ⟨op', hc', he⟩ := hl.returned j q r hr
    exact ⟨op', hc', List.mem_append_left _ he⟩
  realTime := by
    intro j q r k q' op' hsub hk
    rw [List.map_append] at hk ⊢
    rcases List.mem_append.mp hk with hk | hk
    · exact (hl.realTime j q r k q' op' hsub hk).trans (List.sublist_append_left _ _)
    · -- everything that has returned is in the sequence already
      obtain rfl := List.mem_singleton.mp hk
      have hj := hl.mem_of_ret (hsub.subset (List.mem_cons_self ..))
      exact pair_sublist_snoc.mpr (.inr ⟨hj, rfl⟩)

/-- A call that has taken effect returns. -/
theorem Linearization.ret (hl : Linearization apply s₀ s h order) {i : ℕ} {p : P} {op : Op} {r : Ret}
    (hc : .call i p op ∈ h) (he : ⟨i, op, r⟩ ∈ order) (hout : ∀ q r', .ret i q r' ∉ h) :
    Linearization apply s₀ s (h ++ [.ret i p r]) order where
  wellFormed := by
    rw [List.map_append, List.nodup_append]
    refine ⟨hl.wellFormed, List.nodup_singleton _, ?_⟩
    intro t ht u hu heq
    obtain ⟨e, hmem, rfl⟩ := List.mem_map.mp ht
    obtain rfl := List.mem_singleton.mp hu
    cases e with
    | call j q op' => simp [Event.tag] at heq
    | ret j q r' =>
      obtain rfl : j = i := by simpa [Event.tag] using heq
      exact hout q r' hmem
  nodup := hl.nodup
  legal := hl.legal
  called := by
    intro e he
    obtain ⟨q, hq⟩ := hl.called e he
    exact ⟨q, List.mem_append_left _ hq⟩
  returned := by
    intro j q r' hr
    rcases List.mem_append.mp hr with hr | hr
    · obtain ⟨op', hc', he'⟩ := hl.returned j q r' hr
      exact ⟨op', List.mem_append_left _ hc', he'⟩
    · obtain ⟨rfl, rfl, rfl⟩ : j = i ∧ q = p ∧ r' = r := by simpa using hr
      exact ⟨op, List.mem_append_left _ hc, he⟩
  realTime := by
    intro j q r' k q' op' hsub hk
    rcases pair_sublist_snoc.mp hsub with hsub | ⟨_, heq⟩
    · exact hl.realTime j q r' k q' op' hsub hk
    · exact nomatch heq

end Growth

end Histories

/-! ### An object whose calls take effect in one step -/

section Atomic

variable {P Op Ret S : Type}

/-- Where a process is in a call. -/
inductive Activity (Op Ret : Type) where
  | idle
  | called (i : ℕ) (op : Op)
  | done (i : ℕ) (r : Ret)

/-- The object, what each process is doing, and the number of the next call. -/
structure Atomic (P S Op Ret : Type) where
  obj : S
  activity : P → Activity Op Ret
  next : ℕ

namespace Atomic

/-- A process calls, its call takes effect, it returns. -/
inductive Choice (P Op : Type) where
  | call (p : P) (op : Op)
  | commit (p : P)
  | ret (p : P)

variable [DecidableEq P]

/-- Process `p` goes on with `x`. -/
def goto (a : Atomic P S Op Ret) (p : P) (x : Activity Op Ret) : Atomic P S Op Ret :=
  { a with activity := Function.update a.activity p x }

/-- One step. -/
def step (apply : Op → S → S × Ret) :
    Choice P Op → Atomic P S Op Ret → Option (List (Event P Op Ret) × Atomic P S Op Ret)
  | .call p op, a =>
    match a.activity p with
    | .idle => some ([.call a.next p op], { a.goto p (.called a.next op) with next := a.next + 1 })
    | _ => none
  | .commit p, a =>
    match a.activity p with
    | .called i op => some ([], { a.goto p (.done i (apply op a.obj).2) with obj := (apply op a.obj).1 })
    | _ => none
  | .ret p, a =>
    match a.activity p with
    | .done i r => some ([.ret i p r], a.goto p .idle)
    | _ => none

/-- Nobody is in a call. -/
def start (s : S) : Atomic P S Op Ret := ⟨s, fun _ => .idle, 0⟩

variable {apply : Op → S → S × Ret}

/-- What one step can do. -/
theorem step_cases {c : Choice P Op} {a a' : Atomic P S Op Ret} {e : List (Event P Op Ret)}
    (h : step apply c a = some (e, a')) :
    (∃ p op, a.activity p = .idle ∧ e = [.call a.next p op] ∧
      a' = { a.goto p (.called a.next op) with next := a.next + 1 }) ∨
    (∃ p i op, a.activity p = .called i op ∧ e = [] ∧
      a' = { a.goto p (.done i (apply op a.obj).2) with obj := (apply op a.obj).1 }) ∨
    (∃ p i r, a.activity p = .done i r ∧ e = [.ret i p r] ∧ a' = a.goto p .idle) := by
  cases c with
  | call p op =>
    cases hp : a.activity p with
    | idle =>
      simp only [step, hp, Option.some.injEq, Prod.mk.injEq] at h
      exact .inl ⟨p, op, hp, h.1.symm, h.2.symm⟩
    | called i op => simp [step, hp] at h
    | done i r => simp [step, hp] at h
  | commit p =>
    cases hp : a.activity p with
    | idle => simp [step, hp] at h
    | called i op =>
      simp only [step, hp, Option.some.injEq, Prod.mk.injEq] at h
      exact .inr (.inl ⟨p, i, op, hp, h.1.symm, h.2.symm⟩)
    | done i r => simp [step, hp] at h
  | ret p =>
    cases hp : a.activity p with
    | idle => simp [step, hp] at h
    | called i op => simp [step, hp] at h
    | done i r =>
      simp only [step, hp, Option.some.injEq, Prod.mk.injEq] at h
      exact .inr (.inr ⟨p, i, r, hp, h.1.symm, h.2.symm⟩)

/-- What the history says about the state. -/
structure Inv (apply : Op → S → S × Ret) (s₀ : S) (h : List (Event P Op Ret)) (order : List (Effect Op Ret))
    (a : Atomic P S Op Ret) : Prop where
  lin : Linearization apply s₀ a.obj h order
  fresh : ∀ e ∈ h, e.tag.2 < a.next
  called : ∀ p i op, a.activity p = .called i op → .call i p op ∈ h ∧ i ∉ order.map Effect.id
  done : ∀ p i r, a.activity p = .done i r →
    (∃ op, .call i p op ∈ h ∧ ⟨i, op, r⟩ ∈ order) ∧ ∀ q r', .ret i q r' ∉ h

omit [DecidableEq P] in
theorem inv_start (s₀ : S) : Inv (P := P) apply s₀ [] [] (start s₀) where
  lin := ⟨List.nodup_nil, List.nodup_nil, rfl, by simp, by simp, by simp⟩
  fresh := by simp
  called := by simp [start]
  done := by simp [start]

theorem Inv.call {s₀ : S} {h : List (Event P Op Ret)} {order : List (Effect Op Ret)}
    {a : Atomic P S Op Ret} (hi : Inv apply s₀ h order a) (p : P) (op : Op) :
    Inv apply s₀ (h ++ [.call a.next p op]) order
      { a.goto p (.called a.next op) with next := a.next + 1 } where
  lin := hi.lin.call hi.fresh p op
  fresh := by
    intro e he
    rcases List.mem_append.mp he with he | he
    · exact Nat.lt_succ_of_lt (hi.fresh e he)
    · obtain rfl := List.mem_singleton.mp he
      exact Nat.lt_succ_self _
  called := by
    intro q i op' hq
    by_cases hqp : q = p
    · subst hqp
      obtain ⟨rfl, rfl⟩ : a.next = i ∧ op = op' := by simpa [goto] using hq
      refine ⟨by simp, ?_⟩
      intro hmem
      obtain ⟨q', op'', hc⟩ := hi.lin.exists_call hmem
      exact Nat.lt_irrefl _ (hi.fresh _ hc)
    · obtain ⟨hc, hout⟩ := hi.called q i op' (by simpa [goto, hqp] using hq)
      exact ⟨List.mem_append_left _ hc, hout⟩
  done := by
    intro q i r hq
    by_cases hqp : q = p
    · simp [goto, hqp] at hq
    · obtain ⟨⟨op', hc, he⟩, hout⟩ := hi.done q i r (by simpa [goto, hqp] using hq)
      exact ⟨⟨op', List.mem_append_left _ hc, he⟩, by simpa using hout⟩

theorem Inv.commit {s₀ : S} {h : List (Event P Op Ret)} {order : List (Effect Op Ret)}
    {a : Atomic P S Op Ret} (hi : Inv apply s₀ h order a) {p : P} {i : ℕ} {op : Op}
    (hp : a.activity p = .called i op) :
    Inv apply s₀ h (order ++ [⟨i, op, (apply op a.obj).2⟩])
      { a.goto p (.done i (apply op a.obj).2) with obj := (apply op a.obj).1 } where
  lin := hi.lin.commit (hi.called p i op hp).1 (hi.called p i op hp).2
  fresh := hi.fresh
  called := by
    intro q j op' hq
    by_cases hqp : q = p
    · simp [goto, hqp] at hq
    · have hq : a.activity q = .called j op' := by simpa [goto, hqp] using hq
      obtain ⟨hc, hout⟩ := hi.called q j op' hq
      refine ⟨hc, ?_⟩
      rw [List.map_append, List.mem_append, not_or]
      refine ⟨hout, ?_⟩
      intro hji
      obtain rfl : j = i := by simpa using hji
      exact hqp (hi.lin.unique hc (hi.called p j op hp).1).1
  done := by
    intro q j r hq
    by_cases hqp : q = p
    · subst hqp
      obtain ⟨rfl, rfl⟩ : i = j ∧ (apply op a.obj).2 = r := by simpa [goto] using hq
      refine ⟨⟨op, (hi.called q i op hp).1, by simp⟩, ?_⟩
      intro q' r' hr
      exact (hi.called q i op hp).2 (hi.lin.mem_of_ret hr)
    · obtain ⟨⟨op', hc, he⟩, hout⟩ := hi.done q j r (by simpa [goto, hqp] using hq)
      exact ⟨⟨op', hc, List.mem_append_left _ he⟩, hout⟩

theorem Inv.ret {s₀ : S} {h : List (Event P Op Ret)} {order : List (Effect Op Ret)}
    {a : Atomic P S Op Ret} (hi : Inv apply s₀ h order a) {p : P} {i : ℕ} {r : Ret}
    (hp : a.activity p = .done i r) :
    Inv apply s₀ (h ++ [.ret i p r]) order (a.goto p .idle) := by
  obtain ⟨⟨op, hc, he⟩, hout⟩ := hi.done p i r hp
  refine ⟨hi.lin.ret hc he hout, ?_, ?_, ?_⟩
  · intro e he
    rcases List.mem_append.mp he with he | he
    · exact hi.fresh e he
    · obtain rfl := List.mem_singleton.mp he
      exact hi.fresh (.call i p op) hc
  · intro q j op' hq
    by_cases hqp : q = p
    · simp [goto, hqp] at hq
    · obtain ⟨hc', hout'⟩ := hi.called q j op' (by simpa [goto, hqp] using hq)
      exact ⟨List.mem_append_left _ hc', hout'⟩
  · intro q j r' hq
    by_cases hqp : q = p
    · simp [goto, hqp] at hq
    · obtain ⟨⟨op', hc', he'⟩, hout'⟩ := hi.done q j r' (by simpa [goto, hqp] using hq)
      refine ⟨⟨op', List.mem_append_left _ hc', he'⟩, ?_⟩
      intro q' r'' hr
      rcases List.mem_append.mp hr with hr | hr
      · exact hout' q' r'' hr
      · -- the numbers of two calls in progress differ
        obtain ⟨rfl, -⟩ : j = i ∧ q' = p ∧ r'' = r := by simpa using hr
        exact hqp (hi.lin.unique hc' hc).1

/-- **The histories of an object whose calls take effect in one step are linearizable.** -/
theorem linearizable {s₀ : S} {h : List (Event P Op Ret)} {a : Atomic P S Op Ret}
    (hrun : Run (step apply) (start s₀) h a) : ∃ order, Inv apply s₀ h order a := by
  induction hrun with
  | refl => exact ⟨[], inv_start s₀⟩
  | tail c _ hstep ih =>
    obtain ⟨order, hi⟩ := ih
    obtain ⟨p, op, _, rfl, rfl⟩ | ⟨p, i, op, hp, rfl, rfl⟩ | ⟨p, i, r, hp, rfl, rfl⟩ := step_cases hstep
    · exact ⟨order, hi.call p op⟩
    · exact ⟨_, by simpa using hi.commit hp⟩
    · exact ⟨order, hi.ret hp⟩

end Atomic

end Atomic

end Linearizability
