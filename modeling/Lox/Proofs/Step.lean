/-!
Steps over a state that give a result or stop. Two steps in a row succeed when both do, and they
stop where the first one of them stops.
-/

namespace Lox.Step

variable {ε σ α β : Type}

theorem bind_eq_ok {x : EStateM ε σ α} {f : α → EStateM ε σ β} {s s₂ : σ} {b : β} :
    (x >>= f) s = .ok b s₂ ↔ ∃ a s₁, x s = .ok a s₁ ∧ f a s₁ = .ok b s₂ := by
  cases h : x s with
  | ok a s₁ =>
    simp only [bind, EStateM.bind, h, EStateM.Result.ok.injEq]
    exact ⟨fun hf => ⟨a, s₁, ⟨rfl, rfl⟩, hf⟩, fun ⟨_, _, ⟨rfl, rfl⟩, hf⟩ => hf⟩
  | error e s₁ => simp [bind, EStateM.bind, h]

theorem bind_eq_error {x : EStateM ε σ α} {f : α → EStateM ε σ β} {s s₂ : σ} {e : ε} :
    (x >>= f) s = .error e s₂ ↔
      x s = .error e s₂ ∨ ∃ a s₁, x s = .ok a s₁ ∧ f a s₁ = .error e s₂ := by
  cases h : x s with
  | ok a s₁ =>
    simp only [bind, EStateM.bind, h, EStateM.Result.ok.injEq, reduceCtorEq, false_or]
    exact ⟨fun hf => ⟨a, s₁, ⟨rfl, rfl⟩, hf⟩, fun ⟨_, _, ⟨rfl, rfl⟩, hf⟩ => hf⟩
  | error e s₁ => simp [bind, EStateM.bind, h]

/-- What comes after a step that gave `a` goes on with `a`. -/
theorem bind_of_ok {x : EStateM ε σ α} {s s₁ : σ} {a : α} (h : x s = .ok a s₁)
    (f : α → EStateM ε σ β) : (x >>= f) s = f a s₁ := by
  simp [bind, EStateM.bind, h]

/-- Nothing comes after a step that stopped. -/
theorem bind_of_error {x : EStateM ε σ α} {s s₁ : σ} {e : ε} (h : x s = .error e s₁)
    (f : α → EStateM ε σ β) : (x >>= f) s = .error e s₁ := by
  simp [bind, EStateM.bind, h]

theorem pure_eq_ok {a b : α} {s s₁ : σ} :
    (pure a : EStateM ε σ α) s = .ok b s₁ ↔ a = b ∧ s = s₁ := by
  simp [pure, EStateM.pure]

theorem map_eq_ok {x : EStateM ε σ α} {f : α → β} {s s₁ : σ} {b : β} :
    (f <$> x) s = .ok b s₁ ↔ ∃ a, x s = .ok a s₁ ∧ f a = b := by
  cases h : x s with
  | ok a s₂ =>
    simp only [Functor.map, EStateM.map, h, EStateM.Result.ok.injEq]
    exact ⟨fun ⟨hf, hs⟩ => ⟨a, ⟨rfl, hs⟩, hf⟩, fun ⟨_, ⟨rfl, hs⟩, hf⟩ => ⟨hf, hs⟩⟩
  | error e s₂ => simp [Functor.map, EStateM.map, h]

/-- The end of a step, with another state in place of the one it left. -/
def mapState (g : σ → σ) : EStateM.Result ε σ α → EStateM.Result ε σ α
  | .ok a s => .ok a (g s)
  | .error e s => .error e (g s)

/-- The end of a step with an outcome, in a state. -/
def ended : Except ε α → σ → EStateM.Result ε σ α
  | .ok a, s => .ok a s
  | .error e, s => .error e s

theorem ended_inj {r r' : Except ε α} {s s' : σ} : ended r s = ended r' s' ↔ r = r' ∧ s = s' := by
  cases r <;> cases r' <;> simp [ended]

end Lox.Step
