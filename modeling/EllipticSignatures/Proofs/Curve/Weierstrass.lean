import Mathlib.AlgebraicGeometry.EllipticCurve.Affine.Point
import EllipticSignatures.Proofs.Curve.Accepted
import EllipticSignatures.Proofs.Field.Residue

/-!
# The elliptic curve of an accepted curve

`Curve.weierstrass` is the Weierstrass curve over `ZMod p` with the coefficients of a `Curve`, and
`Affine.ofPoint` writes a point of it in affine coordinates. For an accepted curve of prime modulus
the curve is elliptic, and `Affine.ofPoint` is a bijection onto the points that pass `isOnCurve`
(`ofPoint_injective`, `onCurve_ofPoint`, `OnCurve.exists_ofPoint`). Statements about points that
pass the check are therefore statements about the group of the elliptic curve.
-/

namespace EllipticSignatures

open FieldElement

/-- The Weierstrass curve with the coefficients of `c`. -/
def Curve.weierstrass (c : Curve) : WeierstrassCurve.Affine (ZMod c.p) :=
  { a₁ := 0, a₂ := 0, a₃ := 0, a₄ := c.a.value, a₆ := c.b.value }

/-- The points of the elliptic curve of `c`. -/
abbrev Curve.Point (c : Curve) : Type := c.weierstrass.Point

namespace Affine

/-- The coordinates of the point are reduced. -/
def Reduced : Affine → Prop
  | .infinity => True
  | .point x y => x.Reduced ∧ y.Reduced

/-- The coordinates of the point are reduced elements of modulus `m`. -/
def InField (m : ℕ) : Affine → Prop
  | .infinity => True
  | .point x y => x.InField m ∧ y.InField m

/-- The point has reduced coordinates and passes the check of the curve. -/
structure OnCurve (c : Curve) (P : Affine) : Prop where
  /-- The coordinates are reduced. -/
  reduced : P.Reduced
  /-- The check answers yes. -/
  passes : P.isOnCurve c = .ok true

end Affine

namespace Curve

variable {c : Curve}

@[simp]
theorem weierstrass_a₁ : c.weierstrass.a₁ = 0 := by rw [weierstrass]

@[simp]
theorem weierstrass_a₂ : c.weierstrass.a₂ = 0 := by rw [weierstrass]

@[simp]
theorem weierstrass_a₃ : c.weierstrass.a₃ = 0 := by rw [weierstrass]

namespace Checks

/-- The coefficient of `x` is the coefficient of the Weierstrass curve. -/
theorem a_eq (hc : c.Checks) : c.a = ofZMod c.weierstrass.a₄ :=
  (InField.mk hc.a_modulus hc.a_reduced).eq_ofZMod

/-- The constant coefficient is the coefficient of the Weierstrass curve. -/
theorem b_eq (hc : c.Checks) : c.b = ofZMod c.weierstrass.a₆ :=
  (InField.mk hc.b_modulus hc.b_reduced).eq_ofZMod

/-- The generator has reduced coordinates. -/
theorem inField_generator (hc : c.Checks) : c.generator.InField c.p := by
  obtain ⟨gx, gy, hx, hy, h⟩ := hc.generator_eq
  rw [h]
  exact ⟨⟨rfl, hx⟩, ⟨rfl, hy⟩⟩

end Checks

/-- The right-hand side of the curve equation, on reduced elements. -/
theorem rhs_ofZMod [NeZero c.p] (hc : c.Checks) (x : ZMod c.p) :
    c.rhs (ofZMod x) = .ok (ofZMod (x * x * x + c.weierstrass.a₄ * x + c.weierstrass.a₆)) := by
  simp [rhs, hc.a_eq, hc.b_eq]

section Prime

variable [Fact c.p.Prime]

/-- The curve equation of the Weierstrass curve has no mixed terms. -/
theorem equation_iff_rhs {x y : ZMod c.p} :
    c.weierstrass.Equation x y ↔
      y * y = x * x * x + c.weierstrass.a₄ * x + c.weierstrass.a₆ := by
  rw [WeierstrassCurve.Affine.equation_iff]
  simp only [weierstrass_a₁, weierstrass_a₂, weierstrass_a₃]
  ring_nf

/-- Opposite points have opposite ordinates. -/
@[simp]
theorem negY_eq (x y : ZMod c.p) : c.weierstrass.negY x y = -y := by
  simp [WeierstrassCurve.Affine.negY]

theorem exists_neg_some {x y : ZMod c.p} (h : c.weierstrass.Nonsingular x y) :
    ∃ h', -(WeierstrassCurve.Affine.Point.some x y h) = .some x (-y) h' := by
  have h' : c.weierstrass.Nonsingular x (-y) := by
    rw [← negY_eq x y]
    exact (WeierstrassCurve.Affine.nonsingular_neg x y).mpr h
  exact ⟨h', by simp⟩

/-- The curve is elliptic: its discriminant is `-16 (4 a³ + 27 b²)`, which the checks exclude from
being zero. -/
theorem discriminant_ne_zero (hc : c.Checks) : c.weierstrass.Δ ≠ 0 := by
  obtain ⟨d, hd, hz⟩ := hc.nonsingular
  have hdisc : c.discriminant = .ok (ofZMod (c.weierstrass.a₄ * c.weierstrass.a₄ *
      c.weierstrass.a₄ * 4 + c.weierstrass.a₆ * c.weierstrass.a₆ * 27)) := by
    simp [discriminant, baseElement, hc.a_eq, hc.b_eq]
  obtain rfl := Except.ok.inj (hdisc.symm.trans hd)
  rw [isZero_ofZMod, decide_eq_false_iff_not] at hz
  -- The checked value differs from the discriminant by a power of two, which is invertible.
  have hΔ : c.weierstrass.Δ = -(2 ^ 4 * (c.weierstrass.a₄ * c.weierstrass.a₄ *
      c.weierstrass.a₄ * 4 + c.weierstrass.a₆ * c.weierstrass.a₆ * 27)) := by
    simp only [WeierstrassCurve.Δ, WeierstrassCurve.b₂, WeierstrassCurve.b₄, WeierstrassCurve.b₆,
      WeierstrassCurve.b₈, weierstrass_a₁, weierstrass_a₂, weierstrass_a₃]
    ring
  rw [hΔ, neg_ne_zero]
  exact mul_ne_zero (pow_ne_zero 4 (two_ne_zero_of_prime hc.p_ne_two)) hz

/-- A solution of the curve equation is a point of the elliptic curve. -/
theorem nonsingular_of_equation (hc : c.Checks) {x y : ZMod c.p}
    (h : c.weierstrass.Equation x y) : c.weierstrass.Nonsingular x y :=
  (WeierstrassCurve.Affine.equation_iff_nonsingular_of_Δ_ne_zero (discriminant_ne_zero hc)).mp h

end Prime

end Curve

namespace Affine

variable {c : Curve}

/-- A point of the elliptic curve in affine coordinates. -/
def ofPoint : c.Point → Affine
  | .zero => .infinity
  | .some x y _ => .point (ofZMod x) (ofZMod y)

@[simp]
theorem ofPoint_zero : ofPoint (0 : c.Point) = .infinity := by
  rw [WeierstrassCurve.Affine.Point.zero_def, ofPoint]

@[simp]
theorem ofPoint_some {x y : ZMod c.p} (h : c.weierstrass.Nonsingular x y) :
    ofPoint (.some x y h) = .point (ofZMod x) (ofZMod y) := by
  rw [ofPoint]

/-- On reduced coordinates, `isOnCurve` tests the curve equation, for every modulus. -/
theorem isOnCurve_point [NeZero c.p] (hc : c.Checks) (x y : ZMod c.p) :
    (Affine.point (ofZMod x) (ofZMod y)).isOnCurve c =
      .ok (decide (y * y = x * x * x + c.weierstrass.a₄ * x + c.weierstrass.a₆)) := by
  simp [isOnCurve, Curve.rhs_ofZMod hc]

variable [Fact c.p.Prime]

theorem ofPoint_injective : Function.Injective (ofPoint (c := c)) := by
  rintro (_ | ⟨x₁, y₁, h₁⟩) (_ | ⟨x₂, y₂, h₂⟩) h
  · rfl
  · simp [ofPoint] at h
  · simp [ofPoint] at h
  · simp only [ofPoint, Affine.point.injEq, ofZMod_inj] at h
    obtain ⟨rfl, rfl⟩ := h
    rfl

/-- Only zero has no coordinates. -/
theorem ofPoint_eq_infinity_iff {P : c.Point} : ofPoint P = .infinity ↔ P = 0 := by
  rw [← ofPoint_zero, ofPoint_injective.eq_iff]

theorem inField_ofPoint (P : c.Point) : (ofPoint P).InField c.p := by
  cases P with
  | zero => trivial
  | some x y h => exact ⟨inField_ofZMod x, inField_ofZMod y⟩

omit [Fact c.p.Prime] in
/-- Coordinates in a field are reduced. -/
theorem InField.reduced {m : ℕ} {P : Affine} (h : P.InField m) : P.Reduced := by
  cases P with
  | infinity => trivial
  | point x y => exact ⟨h.left.reduced, h.right.reduced⟩

/-- Every point of the elliptic curve passes the check. -/
theorem onCurve_ofPoint (hc : c.Checks) (P : c.Point) : (ofPoint P).OnCurve c := by
  cases P with
  | zero => exact ⟨trivial, rfl⟩
  | some x y h =>
    refine ⟨⟨(inField_ofZMod x).reduced, (inField_ofZMod y).reduced⟩, ?_⟩
    rw [ofPoint_some, isOnCurve_point hc, decide_eq_true (Curve.equation_iff_rhs.mp h.left)]

omit [Fact c.p.Prime] in
/-- The check compares both moduli with the modulus of the curve. -/
theorem OnCurve.inField {P : Affine} (h : P.OnCurve c) : P.InField c.p := by
  cases P with
  | infinity => trivial
  | point x y =>
    by_cases hm : x.modulus ≠ c.p ∨ y.modulus ≠ c.p
    · simpa [isOnCurve, hm] using h.passes
    · rw [not_or, not_not, not_not] at hm
      exact ⟨⟨hm.left, h.reduced.left⟩, ⟨hm.right, h.reduced.right⟩⟩

/-- Every point that passes the check is a point of the elliptic curve. -/
theorem OnCurve.exists_ofPoint (hc : c.Checks) {P : Affine} (h : P.OnCurve c) :
    ∃ Q : c.Point, P = ofPoint Q := by
  have hm := h.inField
  have hon := h.passes
  cases P with
  | infinity => exact ⟨0, ofPoint_zero.symm⟩
  | point x y =>
    obtain ⟨x, rfl⟩ := hm.left.exists_ofZMod
    obtain ⟨y, rfl⟩ := hm.right.exists_ofZMod
    rw [isOnCurve_point hc, Except.ok.injEq, decide_eq_true_eq] at hon
    exact ⟨.some x y (Curve.nonsingular_of_equation hc (Curve.equation_iff_rhs.mpr hon)),
      (ofPoint_some _).symm⟩

/-- A pair of residues is on the curve iff it satisfies the curve equation. -/
theorem onCurve_point_iff (hc : c.Checks) {x y : ZMod c.p} :
    (Affine.point (ofZMod x) (ofZMod y)).OnCurve c ↔ c.weierstrass.Equation x y := by
  rw [Curve.equation_iff_rhs]
  constructor
  · intro h
    simpa [isOnCurve_point hc] using h.passes
  · intro h
    refine ⟨⟨(inField_ofZMod x).reduced, (inField_ofZMod y).reduced⟩, ?_⟩
    rw [isOnCurve_point hc, decide_eq_true h]

/-- A finite point that passes the check is a pair of residues that satisfies the curve equation. -/
theorem OnCurve.exists_point (hc : c.Checks) {P : Affine} (h : P.OnCurve c)
    (hfinite : P ≠ .infinity) :
    ∃ x y : ZMod c.p, P = .point (ofZMod x) (ofZMod y) ∧ c.weierstrass.Equation x y := by
  have hm := h.inField
  cases P with
  | infinity => exact absurd rfl hfinite
  | point x y =>
    obtain ⟨x, rfl⟩ := hm.left.exists_ofZMod
    obtain ⟨y, rfl⟩ := hm.right.exists_ofZMod
    exact ⟨x, y, rfl, (onCurve_point_iff hc).mp h⟩

end Affine

end EllipticSignatures
