import EllipticSignatures.Proofs.Point.AnyModulus

/-!
# When two triples are the same point

`Projective.same` compares cross products and inverts nothing. For a prime modulus it decides
whether two triples stand for one affine point, whatever their scaling, on or off any curve. The
triples with `z = 0` are one class, that of the identity.

- `Projective.rescale`: the triple with all coordinates multiplied by one element;
- `Projective.InField.same_eq_decide`: equality of triples decides equality of affine points;
- `Projective.same_iff_toAffine_eq`: this equality is an equivalence that scaling and conversion
  respect.
-/

namespace EllipticSignatures.Projective

open FieldElement

/-- The triple with every coordinate multiplied by `l`. -/
def rescale (P : Projective) (l : FieldElement) : Checked Projective :=
  match P with
  | .infinity => .ok .infinity
  | .point x y z => do return .point (← x.mul l) (← y.mul l) (← z.mul l)

variable {m : ℕ} [Fact m.Prime] {P Q : Projective}

/-- Equality of triples decides whether they stand for one affine point. -/
theorem InField.same_eq_decide (hP : P.InField m) (hQ : Q.InField m) :
    ∃ A B, P.toAffine = .ok A ∧ Q.toAffine = .ok B ∧ P.same Q = .ok (decide (A = B)) := by
  rcases hP.parts_cases with hPnone | ⟨x₁, y₁, z₁, hz₁, hPparts⟩
  · refine ⟨.infinity, ?_⟩
    rcases hQ.parts_cases with hQnone | ⟨x₂, y₂, z₂, hz₂, hQparts⟩
    · exact ⟨.infinity, toAffine_of_parts_none hPnone, toAffine_of_parts_none hQnone,
        by simp [same, hPnone, hQnone]⟩
    · exact ⟨_, toAffine_of_parts_none hPnone, toAffine_of_parts_some hz₂ hQparts,
        by simp [same, hPnone, hQparts]⟩
  · refine ⟨.point (ofZMod (x₁ / z₁)) (ofZMod (y₁ / z₁)), ?_⟩
    rcases hQ.parts_cases with hQnone | ⟨x₂, y₂, z₂, hz₂, hQparts⟩
    · exact ⟨.infinity, toAffine_of_parts_some hz₁ hPparts, toAffine_of_parts_none hQnone,
        by simp [same, hPparts, hQnone]⟩
    · refine ⟨_, toAffine_of_parts_some hz₁ hPparts, toAffine_of_parts_some hz₂ hQparts, ?_⟩
      -- Quotients by `z₁` and `z₂` are equal exactly if the cross products are.
      have hx : x₁ / z₁ = x₂ / z₂ ↔ x₁ * z₂ = x₂ * z₁ := div_eq_div_iff hz₁ hz₂
      have hy : y₁ / z₁ = y₂ / z₂ ↔ y₁ * z₂ = y₂ * z₁ := div_eq_div_iff hz₁ hz₂
      by_cases hxx : x₁ * z₂ = x₂ * z₁
      · simp [same, hPparts, hQparts, hx, hy, hxx]
      · simp [same, hPparts, hQparts, hx, hxx]

/-- Two triples are the same point iff they convert to one affine point. -/
theorem InField.same_iff (hP : P.InField m) (hQ : Q.InField m) :
    P.same Q = .ok true ↔ P.toAffine = Q.toAffine := by
  obtain ⟨A, B, hA, hB, hsame⟩ := hP.same_eq_decide hQ
  rw [hA, hB, hsame, Except.ok.injEq, Except.ok.injEq, decide_eq_true_eq]

/-- A rescaled triple stands for the same affine point. -/
theorem InField.exists_rescale (hP : P.InField m) {l : ZMod m} (hl : l ≠ 0) :
    ∃ R, P.rescale (ofZMod l) = .ok R ∧ R.InField m ∧ R.toAffine = P.toAffine := by
  cases P with
  | infinity => exact ⟨.infinity, rfl, trivial, rfl⟩
  | point x y z =>
    obtain ⟨x, rfl⟩ := hP.left.exists_ofZMod
    obtain ⟨y, rfl⟩ := hP.right.left.exists_ofZMod
    obtain ⟨z, rfl⟩ := hP.right.right.exists_ofZMod
    refine ⟨.point (ofZMod (x * l)) (ofZMod (y * l)) (ofZMod (z * l)), by simp [rescale],
      ⟨inField_ofZMod _, inField_ofZMod _, inField_ofZMod _⟩, ?_⟩
    by_cases hz : z = 0
    · -- Both triples are read as the identity.
      subst hz
      rw [zero_mul, toAffine_of_parts_none (by simp [parts]),
        toAffine_of_parts_none (by simp [parts])]
    · have hzl : z * l ≠ 0 := mul_ne_zero hz hl
      rw [toAffine_of_parts_some hzl (parts_point_ofZMod hzl),
        toAffine_of_parts_some hz (parts_point_ofZMod hz), mul_div_mul_right x z hl,
        mul_div_mul_right y z hl]

omit [Fact m.Prime] in
/-- Equality of triples is equality of points. For a prime modulus and all triples with reduced
coordinates, with any `z`, the comparison answers, and its answer is yes exactly if both triples
convert to one affine point. It is an equivalence, it holds between a triple and each rescaling of
it by a nonzero element, and between a triple and that of its affine point; and converting an affine
point to a triple and back gives the point. -/
theorem same_iff_toAffine_eq (hm : m.Prime) :
    (∀ P Q : Projective, P.InField m → Q.InField m → ∃ A B answer, P.toAffine = .ok A ∧
      Q.toAffine = .ok B ∧ P.same Q = .ok answer ∧ (answer = true ↔ A = B)) ∧
    (Equivalence fun P Q : { P : Projective // P.InField m } => P.val.same Q.val = .ok true) ∧
    (∀ P : Projective, P.InField m → ∀ l : FieldElement, l.InField m → l.isZero = false →
      ∃ R, P.rescale l = .ok R ∧ R.InField m ∧ P.same R = .ok true) ∧
    (∀ P : Projective, P.InField m →
      ∃ A R, P.toAffine = .ok A ∧ ofAffine A = .ok R ∧ R.same P = .ok true) ∧
    ∀ A : Affine, A.InField m → ∃ R, ofAffine A = .ok R ∧ R.toAffine = .ok A := by
  have := Fact.mk hm
  refine ⟨?_, ⟨?_, ?_, ?_⟩, ?_, ?_, ?_⟩
  · intro P Q hP hQ
    obtain ⟨A, B, hA, hB, hsame⟩ := hP.same_eq_decide hQ
    exact ⟨A, B, _, hA, hB, hsame, decide_eq_true_iff⟩
  -- The comparison inherits the laws of an equivalence from equality of affine points.
  · intro P
    exact (P.property.same_iff P.property).mpr rfl
  · intro P Q h
    rw [P.property.same_iff Q.property] at h
    exact (Q.property.same_iff P.property).mpr h.symm
  · intro P Q R hPQ hQR
    rw [P.property.same_iff Q.property] at hPQ
    rw [Q.property.same_iff R.property] at hQR
    exact (P.property.same_iff R.property).mpr (hPQ.trans hQR)
  · intro P hP l hl hzero
    obtain ⟨l, rfl⟩ := hl.exists_ofZMod
    have hl₀ : l ≠ 0 := by simpa using hzero
    obtain ⟨R, hR, hfield, haffine⟩ := hP.exists_rescale hl₀
    exact ⟨R, hR, hfield, (hP.same_iff hfield).mpr haffine.symm⟩
  · intro P hP
    obtain ⟨A, hA, hfield⟩ := hP.exists_toAffine hm.two_le
    obtain ⟨R, hR, hRfield, hRA⟩ := exists_toAffine_ofAffine hfield
    exact ⟨A, R, hA, hR, (hRfield.same_iff hP).mpr (hRA.trans hA.symm)⟩
  · intro A hA
    obtain ⟨R, hR, -, hRA⟩ := exists_toAffine_ofAffine hA
    exact ⟨R, hR, hRA⟩

/-- Modulo 19, a triple with `z = 2` and the one with `z = 1` of its quotients, and a triple with
`z = 0` that is rescaled by five. -/
theorem nineteen_same_iff_toAffine_eq :
    let P : Projective := .point ⟨8, 19⟩ ⟨6, 19⟩ ⟨2, 19⟩
    let Q : Projective := .point ⟨4, 19⟩ ⟨3, 19⟩ ⟨1, 19⟩
    let Z : Projective := .point ⟨7, 19⟩ ⟨5, 19⟩ ⟨0, 19⟩
    P.InField 19 ∧ Q.InField 19 ∧ Z.InField 19 ∧ P ≠ Q ∧
      (∃ A B answer, P.toAffine = .ok A ∧ Q.toAffine = .ok B ∧ P.same Q = .ok answer ∧
        (answer = true ↔ A = B)) ∧
      (∃ R, Z.rescale ⟨5, 19⟩ = .ok R ∧ R.InField 19 ∧ Z.same R = .ok true) ∧
      ∃ A R, Z.toAffine = .ok A ∧ ofAffine A = .ok R ∧ R.same Z = .ok true := by
  intro P Q Z
  have hP : P.InField 19 := ⟨⟨rfl, by decide⟩, ⟨rfl, by decide⟩, ⟨rfl, by decide⟩⟩
  have hQ : Q.InField 19 := ⟨⟨rfl, by decide⟩, ⟨rfl, by decide⟩, ⟨rfl, by decide⟩⟩
  have hZ : Z.InField 19 := ⟨⟨rfl, by decide⟩, ⟨rfl, by decide⟩, ⟨rfl, by decide⟩⟩
  obtain ⟨equal, -, rescaled, converted, -⟩ := same_iff_toAffine_eq (show Nat.Prime 19 by norm_num)
  exact ⟨hP, hQ, hZ, by decide, equal P Q hP hQ, rescaled Z hZ ⟨5, 19⟩ ⟨rfl, by decide⟩ rfl,
    converted Z hZ⟩

end EllipticSignatures.Projective
