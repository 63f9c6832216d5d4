import Mathlib.Tactic.FieldSimp
import EllipticSignatures.Proofs.Point.GroupLaw

/-!
# Homogeneous coordinates stand for affine points

A triple with reduced coordinates stands for one affine point, the one that `toAffine` computes.
The operations on triples are the operations on the points they stand for, for points on or off
the curve, every scaling, and triples with `z = 0`.
-/

namespace EllipticSignatures.Projective

open FieldElement

/-- The coordinates of the point are reduced elements of modulus `m`. -/
def InField (m : ℕ) : Projective → Prop
  | .infinity => True
  | .point x y z => x.InField m ∧ y.InField m ∧ z.InField m

/-- The triple has reduced coordinates in the field of the curve and stands for `A`. -/
structure Represents (c : Curve) (P : Projective) (A : Affine) : Prop where
  /-- The coordinates are reduced. -/
  inField : P.InField c.p
  /-- The point that the triple stands for. -/
  toAffine_eq : P.toAffine = .ok A

variable {c : Curve} {P Q : Projective} {A B : Affine}

/-! ## The triples of residues -/

section Parts

variable {m : ℕ}

@[simp]
theorem parts_point_ofZMod {x y z : ZMod m} (hz : z ≠ 0) :
    (Projective.point (ofZMod x) (ofZMod y) (ofZMod z)).parts =
      some (ofZMod x, ofZMod y, ofZMod z) := by
  simp [parts, hz]

/-- A triple is read as the identity or as three residues, the last one nonzero. -/
theorem InField.parts_cases (h : P.InField m) :
    P.parts = none ∨
      ∃ x y z : ZMod m, z ≠ 0 ∧ P.parts = some (ofZMod x, ofZMod y, ofZMod z) := by
  cases P with
  | infinity => exact .inl rfl
  | point x y z =>
    obtain ⟨x, rfl⟩ := h.left.exists_ofZMod
    obtain ⟨y, rfl⟩ := h.right.left.exists_ofZMod
    obtain ⟨z, rfl⟩ := h.right.right.exists_ofZMod
    -- A triple with `z = 0` is read as the identity.
    by_cases hz : z = 0
    · exact .inl (by simp [parts, hz])
    · exact .inr ⟨x, y, z, hz, parts_point_ofZMod hz⟩

theorem toAffine_of_parts_none (h : P.parts = none) : P.toAffine = .ok .infinity := by
  rw [toAffine, h]

/-- For a prime modulus conversion divides by `z`. -/
theorem toAffine_of_parts_some [Fact m.Prime] {x y z : ZMod m} (hz : z ≠ 0)
    (h : P.parts = some (ofZMod x, ofZMod y, ofZMod z)) :
    P.toAffine = .ok (.point (ofZMod (x / z)) (ofZMod (y / z))) := by
  simp [toAffine, h, invert_ofZMod hz, div_eq_mul_inv]

/-- For a prime modulus the triple of an affine point converts to that point. -/
theorem exists_toAffine_ofAffine [Fact m.Prime] (h : A.InField m) :
    ∃ R, ofAffine A = .ok R ∧ R.InField m ∧ R.toAffine = .ok A := by
  cases A with
  | infinity => exact ⟨.infinity, rfl, trivial, rfl⟩
  | point x y =>
    obtain ⟨x, rfl⟩ := h.left.exists_ofZMod
    obtain ⟨y, rfl⟩ := h.right.exists_ofZMod
    have hone : (1 : ZMod m) ≠ 0 := one_ne_zero
    refine ⟨.point (ofZMod x) (ofZMod y) (ofZMod (1 : ZMod m)), ?_,
      ⟨inField_ofZMod x, inField_ofZMod y, inField_ofZMod 1⟩, ?_⟩
    · simp [ofAffine, ofCoordinates]
    · rw [toAffine_of_parts_some hone (parts_point_ofZMod hone), div_one, div_one]

/-- The triple of three residues. -/
def ofTriple (x y z : ZMod c.p) : Projective := .point (ofZMod x) (ofZMod y) (ofZMod z)

@[simp]
theorem parts_ofTriple {x y z : ZMod c.p} (hz : z ≠ 0) :
    (ofTriple x y z).parts = some (ofZMod x, ofZMod y, ofZMod z) :=
  parts_point_ofZMod hz

@[simp]
theorem ofCoordinates_ofZMod {x y z : ZMod c.p} (hz : z ≠ 0) :
    ofCoordinates (ofZMod x) (ofZMod y) (ofZMod z) = ofTriple x y z := by
  simp [ofCoordinates, ofTriple, hz]

end Parts

/-! ## The formulas, for every modulus -/

section Formulas

variable [NeZero c.p]

/-- The check of the curve tests the homogeneous equation. -/
theorem isOnCurve_of_parts (hc : c.Checks) {x y z : ZMod c.p}
    (hP : P.parts = some (ofZMod x, ofZMod y, ofZMod z)) :
    P.isOnCurve c = .ok (decide (y * y * z = x * x * x + c.weierstrass.a₄ * x * (z * z) +
      c.weierstrass.a₆ * (z * z * z))) := by
  simp [isOnCurve, hP, hc.a_eq, hc.b_eq]

/-- The doubling formula, with the slope `n / d` of the tangent. -/
theorem double_of_parts (hc : c.Checks) {x y z : ZMod c.p} (hy : y ≠ 0)
    (hP : P.parts = some (ofZMod x, ofZMod y, ofZMod z)) :
    let d := y * z + y * z
    let n := x * x + x * x + x * x + c.weierstrass.a₄ * (z * z)
    P.double c = .ok (ofCoordinates
      (ofZMod (n * n * d * z - (d * d * d * x + d * d * d * x)))
      (ofZMod (x * n * (d * d) + x * n * (d * d) + x * n * (d * d) - n * n * n * z -
        y * (d * d * d)))
      (ofZMod (z * (d * d * d)))) := by
  intro d n
  simp [Projective.double, hP, hy, hc.a_eq, d, n]

/-- The addition formula, with the slope `n / d` of the chord. -/
theorem add_of_parts {x₁ y₁ z₁ x₂ y₂ z₂ : ZMod c.p} (hx : x₁ * z₂ ≠ x₂ * z₁)
    (hP : P.parts = some (ofZMod x₁, ofZMod y₁, ofZMod z₁))
    (hQ : Q.parts = some (ofZMod x₂, ofZMod y₂, ofZMod z₂)) :
    let d := x₂ * z₁ - x₁ * z₂
    let n := y₂ * z₁ - y₁ * z₂
    P.add Q c = .ok (ofCoordinates
      (ofZMod (z₁ * z₂ * (n * n) * d - d * d * d * (x₁ * z₂ + x₂ * z₁)))
      (ofZMod (d * d * n * (x₁ * z₂ + x₁ * z₂ + x₂ * z₁) - n * n * n * (z₁ * z₂) -
        y₁ * (d * d * d) * z₂))
      (ofZMod (d * d * d * (z₁ * z₂)))) := by
  intro d n
  simp [Projective.add, hP, hQ, hx, d, n]

end Formulas

variable [Fact c.p.Prime]

/-! ## The points that triples stand for -/

section Represented

/-- A triple of residues with `z ≠ 0` stands for the point of its quotients. -/
theorem represents_ofTriple {x y z : ZMod c.p} (hz : z ≠ 0) :
    Represents c (ofTriple x y z) (.point (ofZMod (x / z)) (ofZMod (y / z))) where
  inField := ⟨inField_ofZMod x, inField_ofZMod y, inField_ofZMod z⟩
  toAffine_eq := toAffine_of_parts_some hz (parts_ofTriple hz)

/-- A triple stands for the point whose coordinates times `z` it holds. -/
theorem represents_of_eq {x y z u v : ZMod c.p} (hz : z ≠ 0) (hx : x = u * z) (hy : y = v * z) :
    Represents c (ofCoordinates (ofZMod x) (ofZMod y) (ofZMod z))
      (.point (ofZMod u) (ofZMod v)) := by
  rw [ofCoordinates_ofZMod hz, ← (div_eq_iff hz).mpr hx, ← (div_eq_iff hz).mpr hy]
  exact represents_ofTriple hz

omit [Fact c.p.Prime] in
theorem represents_infinity : Represents c .infinity .infinity := ⟨trivial, rfl⟩

/-- Every triple with reduced coordinates stands for a point. -/
theorem InField.exists_represents (h : P.InField c.p) : ∃ A, Represents c P A := by
  rcases h.parts_cases with hP | ⟨x, y, z, hz, hP⟩
  · exact ⟨_, h, toAffine_of_parts_none hP⟩
  · exact ⟨_, h, toAffine_of_parts_some hz hP⟩

/-- A point that a triple stands for is the identity or a pair of quotients. -/
theorem Represents.cases (h : Represents c P A) :
    (P.parts = none ∧ A = .infinity) ∨
      ∃ x y z : ZMod c.p, z ≠ 0 ∧ P.parts = some (ofZMod x, ofZMod y, ofZMod z) ∧
        A = .point (ofZMod (x / z)) (ofZMod (y / z)) := by
  rcases h.inField.parts_cases with hP | ⟨x, y, z, hz, hP⟩
  · exact .inl ⟨hP, Except.ok.inj (h.toAffine_eq.symm.trans (toAffine_of_parts_none hP))⟩
  · exact .inr ⟨x, y, z, hz, hP,
      Except.ok.inj (h.toAffine_eq.symm.trans (toAffine_of_parts_some hz hP))⟩

/-- The triple of an affine point stands for it. -/
theorem exists_ofAffine (h : A.InField c.p) : ∃ R, ofAffine A = .ok R ∧ Represents c R A := by
  obtain ⟨R, hR, hfield, hA⟩ := exists_toAffine_ofAffine h
  exact ⟨R, hR, hfield, hA⟩

end Represented

/-! ## The operations -/

section Operations

theorem Represents.negate (h : Represents c P A) :
    ∃ R B, P.negate = .ok R ∧ A.negate = .ok B ∧ Represents c R B := by
  rcases h.cases with ⟨hP, rfl⟩ | ⟨x, y, z, hz, hP, rfl⟩
  · exact ⟨.infinity, .infinity, by rw [Projective.negate, hP], rfl, represents_infinity⟩
  · refine ⟨ofTriple x (-y) z, .point (ofZMod (x / z)) (ofZMod (-(y / z))), ?_, ?_, ?_⟩
    · simp [Projective.negate, hP, hz]
    · simp
    · rw [← neg_div]
      exact represents_ofTriple hz

theorem Represents.double (hc : c.Checks) (h : Represents c P A) :
    ∃ R B, P.double c = .ok R ∧ A.double c = .ok B ∧ Represents c R B := by
  rcases h.cases with ⟨hP, rfl⟩ | ⟨x, y, z, hz, hP, rfl⟩
  · exact ⟨.infinity, .infinity, by rw [Projective.double, hP], rfl, represents_infinity⟩
  by_cases hy : y = 0
  · subst hy
    refine ⟨.infinity, .infinity, ?_, ?_, represents_infinity⟩
    · simp [Projective.double, hP]
    · rw [zero_div, Affine.double_point_of_zero]
  · have hyz : y / z ≠ 0 := div_ne_zero hy hz
    have h2 : (2 : ZMod c.p) ≠ 0 := two_ne_zero_of_prime hc.p_ne_two
    have hd : y * z + y * z ≠ 0 := add_self_ne_zero hc.p_odd (mul_ne_zero hy hz)
    have hyy : y + y ≠ 0 := add_self_ne_zero hc.p_odd hy
    have hl : (x / z * (x / z) + x / z * (x / z) + x / z * (x / z) + c.weierstrass.a₄) /
        (y / z + y / z) = (x * x + x * x + x * x + c.weierstrass.a₄ * (z * z)) /
        (y * z + y * z) := by
      field_simp
    refine ⟨_, _, double_of_parts hc hy hP, Affine.double_point hc (x / z) hyz, ?_⟩
    -- Numerator and denominator of the slope stay closed, which keeps both identities small.
    rw [hl, Affine.onLine]
    generalize y * z + y * z = d at hd ⊢
    generalize x * x + x * x + x * x + c.weierstrass.a₄ * (z * z) = n
    refine represents_of_eq (mul_ne_zero hz (mul_ne_zero (mul_ne_zero hd hd) hd)) ?_ ?_
    · field_simp
      ring
    · field_simp
      ring

theorem Represents.add (hc : c.Checks) (hA : Represents c P A) (hB : Represents c Q B) :
    ∃ R C, P.add Q c = .ok R ∧ A.add B c = .ok C ∧ Represents c R C := by
  rcases hA.cases with ⟨hP, rfl⟩ | ⟨x₁, y₁, z₁, hz₁, hP, rfl⟩
  · exact ⟨Q, B, by simp [Projective.add, hP], Affine.infinity_add B, hB⟩
  rcases hB.cases with ⟨hQ, rfl⟩ | ⟨x₂, y₂, z₂, hz₂, hQ, rfl⟩
  · exact ⟨P, _, by simp [Projective.add, hP, hQ], Affine.add_infinity _, hA⟩
  -- The cross products that `add` compares are equal exactly if the quotients are.
  have hxx : x₁ * z₂ = x₂ * z₁ ↔ x₁ / z₁ = x₂ / z₂ := (div_eq_div_iff hz₁ hz₂).symm
  have hyy : y₁ * z₂ = y₂ * z₁ ↔ y₁ / z₁ = y₂ / z₂ := (div_eq_div_iff hz₁ hz₂).symm
  by_cases hx : x₁ / z₁ = x₂ / z₂
  · by_cases hy : y₁ / z₁ = y₂ / z₂
    · -- The points are equal, so both sums are doublings.
      obtain ⟨R, C, hR, hC, h⟩ := hA.double hc
      refine ⟨R, C, ?_, ?_, h⟩
      · rw [← hR]
        simp [Projective.add, hP, hQ, hxx.mpr hx, hyy.mpr hy]
      · rw [← hx, ← hy, Affine.add_self, hC]
    · -- The abscissas agree and the ordinates do not, so both sums are the identity.
      refine ⟨.infinity, .infinity, ?_, ?_, represents_infinity⟩
      · simp [Projective.add, hP, hQ, hxx.mpr hx, hyy.not.mpr hy]
      · rw [← hx, Affine.add_point_of_eq _ hy]
  · -- Both sums follow the chord, whose slope is the quotient of the cross differences.
    have hd : x₂ * z₁ - x₁ * z₂ ≠ 0 := sub_ne_zero.mpr fun h => hx (hxx.mp h.symm)
    have hl : (y₂ / z₂ - y₁ / z₁) / (x₂ / z₂ - x₁ / z₁) =
        (y₂ * z₁ - y₁ * z₂) / (x₂ * z₁ - x₁ * z₂) := by
      rw [div_sub_div _ _ hz₂ hz₁, div_sub_div _ _ hz₂ hz₁,
        div_div_div_cancel_right₀ (mul_ne_zero hz₂ hz₁), mul_comm z₂, mul_comm z₂]
    refine ⟨_, _, add_of_parts (hxx.not.mpr hx) hP hQ, Affine.add_point_of_ne _ _ hx, ?_⟩
    rw [hl, Affine.onLine]
    generalize x₂ * z₁ - x₁ * z₂ = d at hd ⊢
    generalize y₂ * z₁ - y₁ * z₂ = n
    refine represents_of_eq
      (mul_ne_zero (mul_ne_zero (mul_ne_zero hd hd) hd) (mul_ne_zero hz₁ hz₂)) ?_ ?_
    · field_simp
      ring
    · field_simp
      ring

end Operations

end EllipticSignatures.Projective
