import Mathlib.Tactic.Common
import EllipticSignatures.Random.Source
import EllipticSignatures.Proofs.Outcome

/-!
# What a successful draw tells

A computation that reads random bytes is run from a `Source`. A run that ends with a value is taken
apart into the runs of its steps, and a successful `Draw.retry` into the run of the step that gave
the value.
-/

namespace EllipticSignatures

namespace Draw

variable {ε α β : Type} {source source' : Source}

/-- A computation of two steps gives a value iff the first one gives a value and the second one
gives the value from there. -/
theorem run_bind_eq_ok {x : Draw ε α} {f : α → Draw ε β} {b : β} :
    (x >>= f).run source = (.ok b, source') ↔
      ∃ a middle, x.run source = (.ok a, middle) ∧ (f a).run middle = (.ok b, source') := by
  rw [ExceptT.run_bind]
  simp only [bind, StateT.bind]
  rcases x.run source with ⟨_ | a, middle⟩
  · constructor
    · rintro ⟨⟩
    · rintro ⟨_, _, ⟨⟩, _⟩
  · constructor
    · intro h
      exact ⟨a, middle, rfl, h⟩
    · rintro ⟨_, _, ⟨⟩, h⟩
      exact h

theorem run_pure_eq_ok {a b : α} :
    (pure a : Draw ε α).run source = (.ok b, source') ↔ a = b ∧ source = source' := by
  constructor
  · rintro ⟨⟩
    exact ⟨rfl, rfl⟩
  · rintro ⟨rfl, rfl⟩
    rfl

theorem run_lift_eq_ok {x : Outcome ε α} {a : α} :
    (liftM x : Draw ε α).run source = (.ok a, source') ↔ x = .ok a ∧ source = source' := by
  constructor
  · rintro ⟨⟩
    exact ⟨rfl, rfl⟩
  · rintro ⟨rfl, rfl⟩
    rfl

theorem run_retryFor_eq_ok {step : Draw ε (Option α)} {a : α} :
    ∀ {tries : ℕ} {source : Source}, (retryFor step tries).run source = (.ok a, source') →
      ∃ start, step.run start = (.ok (some a), source')
  | 0, source, h => by
    cases h
  | tries + 1, source, h => by
    obtain ⟨result, middle, hstep, hrest⟩ := run_bind_eq_ok.mp h
    cases result with
    -- A step without a value leaves the rest of the tries to give it.
    | none => exact run_retryFor_eq_ok hrest
    | some b =>
      obtain ⟨rfl, rfl⟩ := run_pure_eq_ok.mp hrest
      exact ⟨source, hstep⟩

/-- A repeated step gives a value only if some run of the step gave it. -/
theorem run_retry_eq_ok {step : Draw ε (Option α)} {a : α}
    (h : (retry step).run source = (.ok a, source')) :
    ∃ start, step.run start = (.ok (some a), source') :=
  run_retryFor_eq_ok h

end Draw

end EllipticSignatures
