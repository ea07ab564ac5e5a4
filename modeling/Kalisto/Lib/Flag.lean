import Kalisto.Lib.Outcome

/-!
# What a computation keeps of the state

Computations with a state and a flag in it, such as a processor with an interrupt enable bit.  A
section clears the flag and puts it back before it ends.

* `Keeps view f` — whenever `f` returns, this part of the state is as it was;
* `Ends flag b f` — whenever `f` returns from a state with a cleared flag, the flag is `b`;
* `Keeps.of_clears` — code that clears the flag and ends with what it was keeps it.

Single statements are simp lemmas; `Keeps.bind`, `Keeps.ite`, `Ends.bind` and `Ends.ite` take a block
apart.
-/

variable {S ε α β γ : Type} {view : S → γ} {flag : S → Bool} {b : Bool}

/-- Whenever the computation returns, this part of the state is as it was. -/
def Keeps (view : S → γ) (f : StateT S (Outcome ε) α) : Prop :=
  ∀ s a s', f s = .ok (a, s') → view s' = view s

/-- Whenever the computation returns from a state with a cleared flag, the flag is `b`. -/
def Ends (flag : S → Bool) (b : Bool) (f : StateT S (Outcome ε) α) : Prop :=
  ∀ s a s', flag s = false → f s = .ok (a, s') → flag s' = b

/-- The flag is read and cleared. -/
def Clears (flag : S → Bool) (q : StateT S (Outcome ε) Bool) : Prop :=
  ∀ s b s', q s = .ok (b, s') → b = flag s ∧ flag s' = false

/-- A block that returned did so in each of its statements. -/
theorem StateT.bind_eq_ok {f : StateT S (Outcome ε) α} {g : α → StateT S (Outcome ε) β} {s : S}
    {r : β × S} : (f >>= g) s = .ok r ↔ ∃ a s₁, f s = .ok (a, s₁) ∧ g a s₁ = .ok r := by
  change (f s >>= fun p => g p.1 p.2) = .ok r ↔ _
  rw [Outcome.bind_eq_ok]
  constructor
  · rintro ⟨⟨a, s₁⟩, h1, h2⟩
    exact ⟨a, s₁, h1, h2⟩
  · rintro ⟨a, s₁, h1, h2⟩
    exact ⟨(a, s₁), h1, h2⟩

/-! ### Keeping -/

@[simp] theorem keeps_pure (a : α) : Keeps view (pure a : StateT S (Outcome ε) α) := by
  intro s a' s' h
  cases h
  rfl

@[simp] theorem keeps_get : Keeps view (get : StateT S (Outcome ε) S) := by
  intro s a s' h
  cases h
  rfl

/-- A change of another part of the state. -/
theorem keeps_modify {f : S → S} (hf : ∀ s, view (f s) = view s) :
    Keeps view (modify f : StateT S (Outcome ε) PUnit) := by
  intro s a s' h
  cases h
  exact hf s

theorem Keeps.bind {f : StateT S (Outcome ε) α} {g : α → StateT S (Outcome ε) β}
    (hf : Keeps view f) (hg : ∀ a, Keeps view (g a)) : Keeps view (f >>= g) := by
  intro s r s' h
  obtain ⟨a, s₁, h1, h2⟩ := StateT.bind_eq_ok.mp h
  rw [hg a s₁ r s' h2, hf s a s₁ h1]

theorem Keeps.ite {p : Prop} [Decidable p] {f g : StateT S (Outcome ε) α} (hf : Keeps view f)
    (hg : Keeps view g) : Keeps view (if p then f else g) := by
  split
  · exact hf
  · exact hg

/-! ### Sections -/

theorem Ends.bind {f : StateT S (Outcome ε) α} {g : α → StateT S (Outcome ε) β}
    (hf : Keeps flag f) (hg : ∀ a, Ends flag b (g a)) : Ends flag b (f >>= g) := by
  intro s r s' hs h
  obtain ⟨a, s₁, h1, h2⟩ := StateT.bind_eq_ok.mp h
  exact hg a s₁ r s' ((hf s a s₁ h1).trans hs) h2

theorem Ends.ite {p : Prop} [Decidable p] {f g : StateT S (Outcome ε) α} (hf : Ends flag b f)
    (hg : Ends flag b g) : Ends flag b (if p then f else g) := by
  split
  · exact hf
  · exact hg

/-- The rest of a block, after the flag is put back. -/
theorem Ends.then {f : StateT S (Outcome ε) α} {g : α → StateT S (Outcome ε) β}
    (hf : Ends flag b f) (hg : ∀ a, Keeps flag (g a)) : Ends flag b (f >>= g) := by
  intro s r s' hs h
  obtain ⟨a, s₁, h1, h2⟩ := StateT.bind_eq_ok.mp h
  rw [hg a s₁ r s' h2, hf s a s₁ hs h1]

/-- **A section.** -/
theorem Keeps.of_clears {q : StateT S (Outcome ε) Bool} {f : Bool → StateT S (Outcome ε) α}
    (hq : Clears flag q) (hf : ∀ b, Ends flag b (f b)) : Keeps flag (q >>= f) := by
  intro s a s' h
  obtain ⟨b, s₁, h1, h2⟩ := StateT.bind_eq_ok.mp h
  obtain ⟨rfl, hcleared⟩ := hq s b s₁ h1
  exact hf _ s₁ a s' hcleared h2
