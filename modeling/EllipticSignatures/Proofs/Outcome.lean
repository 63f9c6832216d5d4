import EllipticSignatures.Fault

/-!
# Reading computations with faults

The equations that run a computation in `Checked` or `Outcome ε` step by step. A computation that
is known to succeed is taken apart by `bind_eq_ok`, which names the value of its first step. Two
computations that run side by side are compared by `Checked.Related`, which composes along their
steps.

The equations hold by definition, but their proofs rewrite: a step justified by unfolding would have
the kernel compare whole computations by evaluating them.
-/

namespace EllipticSignatures

variable {ε ε' α β : Type}

@[simp]
theorem pure_eq_ok (a : α) : (pure a : Except ε α) = .ok a := by
  simp only [pure, Except.pure]

@[simp]
theorem throw_eq_error (cause : ε) : (throw cause : Except ε α) = .error cause := rfl

@[simp]
theorem ok_bind (a : α) (f : α → Except ε β) : (Except.ok a >>= f) = f a := by
  simp only [bind, Except.bind]

@[simp]
theorem error_bind (cause : ε) (f : α → Except ε β) :
    ((Except.error cause : Except ε α) >>= f) = .error cause := by
  simp only [bind, Except.bind]

/-- A computation of two steps succeeds iff the first one does and the second one succeeds on its
value. -/
theorem bind_eq_ok {x : Except ε α} {f : α → Except ε β} {b : β} :
    (x >>= f) = .ok b ↔ ∃ a, x = .ok a ∧ f a = .ok b := by
  cases x <;> simp

@[simp]
theorem mapError_ok (rename : ε → ε') (a : α) :
    (Except.ok a : Except ε α).mapError rename = .ok a := rfl

@[simp]
theorem mapError_error (rename : ε → ε') (cause : ε) :
    (Except.error cause : Except ε α).mapError rename = .error (rename cause) := rfl

/-- Renaming errors keeps the values. -/
theorem mapError_eq_ok {rename : ε → ε'} {x : Except ε α} {a : α} :
    x.mapError rename = .ok a ↔ x = .ok a := by
  cases x <;> simp

/-- A computation that is seen to succeed has a value. -/
theorem exists_eq_ok_of_toBool {x : Except ε α} (h : x.toBool) : ∃ a, x = .ok a := by
  cases x with
  | error cause => cases h
  | ok a => exact ⟨a, rfl⟩

namespace Checked

/-- Both computations give values, and the values are related by `r`. -/
def Related (r : α → β → Prop) (x : Checked α) (y : Checked β) : Prop :=
  ∃ a b, x = .ok a ∧ y = .ok b ∧ r a b

namespace Related

variable {γ δ : Type} {r : α → β → Prop} {s : γ → δ → Prop}

theorem ok {a : α} {b : β} (h : r a b) : Related r (.ok a) (.ok b) := ⟨a, b, rfl, rfl, h⟩

/-- Computations of two steps are related if the first steps are, and the second ones on related
values. -/
theorem bind {x : Checked α} {y : Checked β} {f : α → Checked γ} {g : β → Checked δ}
    (h : Related r x y) (hstep : ∀ a b, r a b → Related s (f a) (g b)) :
    Related s (x >>= f) (y >>= g) := by
  obtain ⟨a, b, rfl, rfl, hab⟩ := h
  exact hstep a b hab

/-- If the second computation gives a known value, the first one gives a value related to it. -/
theorem exists_of_eq_ok {x : Checked α} {y : Checked β} {b : β} (h : Related r x y)
    (hy : y = .ok b) : ∃ a, x = .ok a ∧ r a b := by
  obtain ⟨a, b', rfl, rfl, hab⟩ := h
  obtain rfl := Except.ok.inj hy
  exact ⟨a, rfl, hab⟩

end Related

end Checked

namespace Outcome

@[simp]
theorem refuse_ne_ok (cause : ε) (a : α) : (refuse cause : Outcome ε α) ≠ .ok a := by
  simp [refuse]

@[simp]
theorem refuse_bind (cause : ε) (f : α → Outcome ε β) :
    (refuse cause >>= f) = refuse cause := rfl

@[simp]
theorem ofExcept_ok (a : α) : (ofExcept (.ok a) : Outcome ε α) = .ok a := rfl

@[simp]
theorem mapRefusal_ok (rename : ε → ε') (a : α) :
    mapRefusal rename (.ok a : Outcome ε α) = .ok a := rfl

/-- A lifted computation gives a value iff the computation itself does. -/
theorem ofChecked_eq_ok {x : Checked α} {a : α} :
    (ofChecked x : Outcome ε α) = .ok a ↔ x = .ok a := by
  cases x <;> simp

/-- Renaming refusals keeps the values. -/
theorem mapRefusal_eq_ok {rename : ε → ε'} {x : Outcome ε α} {a : α} :
    mapRefusal rename x = .ok a ↔ x = .ok a := by
  rcases x with (cause | fault) | b <;> simp [mapRefusal]

theorem ofExcept_eq_ok {x : Except ε α} {a : α} : ofExcept x = .ok a ↔ x = .ok a := by
  cases x <;> simp [ofExcept]

/-- The computation ends with a value or a refusal, and not with a fault. -/
def Answers (x : Outcome ε α) : Prop := (∃ a, x = .ok a) ∨ ∃ cause, x = refuse cause

theorem answers_ok (a : α) : Answers (.ok a : Outcome ε α) := .inl ⟨a, rfl⟩

theorem answers_refuse (cause : ε) : Answers (refuse cause : Outcome ε α) := .inr ⟨cause, rfl⟩

/-- A computation of two steps answers if the first one does and the second one does on its
value. -/
theorem Answers.bind {x : Outcome ε α} {f : α → Outcome ε β} (hx : x.Answers)
    (hf : ∀ a, x = .ok a → (f a).Answers) : Answers (x >>= f) := by
  obtain ⟨a, rfl⟩ | ⟨cause, rfl⟩ := hx
  · rw [ok_bind]
    exact hf a rfl
  · rw [refuse_bind]
    exact answers_refuse cause

/-- Renaming refusals keeps the answers. -/
theorem Answers.mapRefusal {x : Outcome ε α} (h : x.Answers) (rename : ε → ε') :
    (Outcome.mapRefusal rename x).Answers := by
  obtain ⟨a, rfl⟩ | ⟨cause, rfl⟩ := h
  · exact answers_ok a
  · exact answers_refuse (rename cause)

end Outcome

end EllipticSignatures
