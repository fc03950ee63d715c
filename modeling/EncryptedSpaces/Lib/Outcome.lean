/-!
# Outcomes of stateful programs

`Outcome x s Q E` says what holds of the state after `x`: `Q` of a result, `E` of a
failure.  Effects of a program that fails are kept, so `E` is about a state too.
-/

namespace EncryptedSpaces.Lib

variable {ε σ α β : Type} {x : EStateM ε σ α} {f : α → EStateM ε σ β} {s : σ} {Q : α → σ → Prop}
  {E : ε → σ → Prop}

theorem run_bind (x : EStateM ε σ α) (f : α → EStateM ε σ β) (s : σ) :
    (x >>= f).run s = match x.run s with
      | .ok a s' => (f a).run s'
      | .error e s' => .error e s' := rfl

/-- What holds after a run from the state. -/
def Outcome (x : EStateM ε σ α) (s : σ) (Q : α → σ → Prop) (E : ε → σ → Prop) : Prop :=
  match x.run s with
  | .ok a s' => Q a s'
  | .error e s' => E e s'

theorem Outcome.bind {Q' : β → σ → Prop} (h : Outcome x s Q E)
    (hf : ∀ a s', Q a s' → Outcome (f a) s' Q' E) : Outcome (x >>= f) s Q' E := by
  unfold Outcome at h ⊢
  rw [run_bind]
  cases hx : x.run s with
  | ok a s' =>
    rw [hx] at h
    exact hf a s' h
  | error e s' =>
    rw [hx] at h
    exact h

theorem Outcome.mono {Q' : α → σ → Prop} {E' : ε → σ → Prop} (h : Outcome x s Q E)
    (hQ : ∀ a s', Q a s' → Q' a s') (hE : ∀ e s', E e s' → E' e s') : Outcome x s Q' E' := by
  unfold Outcome at h ⊢
  cases hx : x.run s with
  | ok a s' =>
    rw [hx] at h
    exact hQ a s' h
  | error e s' =>
    rw [hx] at h
    exact hE e s' h

/-- A step whose result is known. -/
theorem Outcome.step {a : α} {s' : σ} {Q' : β → σ → Prop} (hx : x.run s = .ok a s')
    (h : Outcome (f a) s' Q' E) : Outcome (x >>= f) s Q' E := by
  refine Outcome.bind (Q := fun b s₁ => b = a ∧ s₁ = s') ?_ ?_
  · unfold Outcome
    rw [hx]
    exact ⟨rfl, rfl⟩
  · rintro _ _ ⟨rfl, rfl⟩
    exact h

theorem Outcome.ite {p : Prop} [Decidable p] {y : EStateM ε σ α} (h : p → Outcome x s Q E)
    (h' : ¬ p → Outcome y s Q E) : Outcome (if p then x else y) s Q E := by
  by_cases hp : p
  · rw [if_pos hp]
    exact h hp
  · rw [if_neg hp]
    exact h' hp

theorem Outcome.of_error {e : ε} {s' : σ} (h : Outcome x s Q E) (hx : x.run s = .error e s') :
    E e s' := by
  unfold Outcome at h
  rwa [hx] at h

end EncryptedSpaces.Lib
