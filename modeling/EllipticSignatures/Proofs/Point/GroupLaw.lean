import EllipticSignatures.Proofs.Curve.Weierstrass

/-!
# The chord and tangent law is a group law

On the points of an accepted curve of prime modulus, `Affine.add`, `Affine.double` and
`Affine.negate` are addition, doubling and negation in the group of the elliptic curve.
-/

namespace EllipticSignatures.Affine

open FieldElement WeierstrassCurve.Affine

variable {c : Curve}

/-- The opposite of the third point on the line of slope `l` through `(x₁, y₁)` and a point of
abscissa `x₂`. -/
def onLine (l x₁ y₁ x₂ : ZMod c.p) : Affine :=
  .point (ofZMod (l * l - x₁ - x₂)) (ofZMod (l * (x₁ - (l * l - x₁ - x₂)) - y₁))

/-! ## The formulas, on or off the curve -/

section Formulas

theorem add_self (P : Affine) : P.add P c = P.double c := by
  cases P with
  | infinity => rfl
  | point x y => simp [add]

theorem infinity_add (P : Affine) : Affine.infinity.add P c = .ok P := by
  cases P <;> rfl

theorem add_infinity (P : Affine) : P.add .infinity c = .ok P := by
  cases P <;> rfl

theorem double_point_of_zero (x : ZMod c.p) :
    (Affine.point (ofZMod x) (ofZMod (0 : ZMod c.p))).double c = .ok .infinity := by
  simp [double]

/-! For every modulus a slope is the product with Fermat's power of its denominator. -/

section AnyModulus

variable [NeZero c.p]

@[simp]
theorem negate_point (x y : ZMod c.p) :
    (Affine.point (ofZMod x) (ofZMod y)).negate = .ok (.point (ofZMod x) (ofZMod (-y))) := by
  simp [negate]

theorem double_point_eq_pow (hc : c.Checks) (x : ZMod c.p) {y : ZMod c.p} (hy : y ≠ 0) :
    (Affine.point (ofZMod x) (ofZMod y)).double c =
      .ok (onLine ((x * x + x * x + x * x + c.weierstrass.a₄) * (y + y) ^ (c.p - 2)) x y x) := by
  have hyy : y + y ≠ 0 := add_self_ne_zero hc.p_odd hy
  simp [double, hy, hc.a_eq, div_eq_mul_pow hc.two_le_p _ hyy, onLine, sub_sub]

theorem add_point_of_eq (x : ZMod c.p) {y₁ y₂ : ZMod c.p} (hy : y₁ ≠ y₂) :
    (Affine.point (ofZMod x) (ofZMod y₁)).add (.point (ofZMod x) (ofZMod y₂)) c =
      .ok .infinity := by
  simp [add, hy]

theorem add_point_eq_pow (hp : 2 ≤ c.p) {x₁ x₂ : ZMod c.p} (y₁ y₂ : ZMod c.p) (hx : x₁ ≠ x₂) :
    (Affine.point (ofZMod x₁) (ofZMod y₁)).add (.point (ofZMod x₂) (ofZMod y₂)) c =
      .ok (onLine ((y₂ - y₁) * (x₂ - x₁) ^ (c.p - 2)) x₁ y₁ x₂) := by
  simp [add, hx, div_eq_mul_pow hp _ (sub_ne_zero.mpr hx.symm), onLine]

end AnyModulus

/-! For a prime modulus that power is the inverse, and a slope is a quotient. -/

variable [Fact c.p.Prime]

theorem double_point (hc : c.Checks) (x : ZMod c.p) {y : ZMod c.p} (hy : y ≠ 0) :
    (Affine.point (ofZMod x) (ofZMod y)).double c =
      .ok (onLine ((x * x + x * x + x * x + c.weierstrass.a₄) / (y + y)) x y x) := by
  rw [double_point_eq_pow hc x hy, pow_sub_two_eq_inv (add_self_ne_zero hc.p_odd hy),
    div_eq_mul_inv]

theorem add_point_of_ne {x₁ x₂ : ZMod c.p} (y₁ y₂ : ZMod c.p) (hx : x₁ ≠ x₂) :
    (Affine.point (ofZMod x₁) (ofZMod y₁)).add (.point (ofZMod x₂) (ofZMod y₂)) c =
      .ok (onLine ((y₂ - y₁) / (x₂ - x₁)) x₁ y₁ x₂) := by
  rw [add_point_eq_pow (Fact.out : c.p.Prime).two_le y₁ y₂ hx,
    pow_sub_two_eq_inv (sub_ne_zero.mpr hx.symm), div_eq_mul_inv]

end Formulas

variable [Fact c.p.Prime]

/-! ## The group of the elliptic curve -/

section Group

theorem negate_ofPoint (P : c.Point) : (ofPoint P).negate = .ok (ofPoint (-P)) := by
  cases P with
  | zero => rfl
  | some x y h => simp

/-- The sum of two points that are not opposite lies on the line through both. -/
private theorem ofPoint_add_some {x₁ y₁ x₂ y₂ : ZMod c.p} (h₁ : c.weierstrass.Nonsingular x₁ y₁)
    (h₂ : c.weierstrass.Nonsingular x₂ y₂) (hxy : ¬(x₁ = x₂ ∧ y₁ = c.weierstrass.negY x₂ y₂)) :
    ofPoint (Point.some x₁ y₁ h₁ + Point.some x₂ y₂ h₂) =
      onLine (c.weierstrass.slope x₁ x₂ y₁ y₂) x₁ y₁ x₂ := by
  rw [Point.add_some hxy, ofPoint_some, onLine, addY, negAddY, Curve.negY_eq, addX]
  -- Without the coefficients of the mixed terms both coordinates agree up to the order of terms.
  congr 2 <;> simp <;> ring

theorem double_ofPoint (hc : c.Checks) (P : c.Point) :
    (ofPoint P).double c = .ok (ofPoint (P + P)) := by
  cases P with
  | zero => rfl
  | some x y h =>
    by_cases hy : y = 0
    · -- The point is its own opposite.
      subst hy
      have hopp : (0 : ZMod c.p) = c.weierstrass.negY x 0 := by
        rw [Curve.negY_eq, neg_zero]
      rw [ofPoint_some, double_point_of_zero, Point.add_self_of_Y_eq hopp, ofPoint_zero]
    · -- The tangent is not vertical, and its slope is the quotient that `double` computes.
      have hne : y ≠ c.weierstrass.negY x y := by
        rw [Curve.negY_eq]
        intro h
        exact add_self_ne_zero hc.p_odd hy (eq_neg_iff_add_eq_zero.mp h)
      rw [ofPoint_some, double_point hc x hy, ofPoint_add_some h h fun hxy => hne hxy.right,
        slope_of_Y_ne rfl hne, Curve.negY_eq, sub_neg_eq_add]
      congr 3
      simp only [Curve.weierstrass_a₁, Curve.weierstrass_a₂]
      ring

theorem add_ofPoint (hc : c.Checks) (P Q : c.Point) :
    (ofPoint P).add (ofPoint Q) c = .ok (ofPoint (P + Q)) := by
  cases P with
  | zero => exact infinity_add (ofPoint Q)
  | some x₁ y₁ h₁ =>
    cases Q with
    | zero => exact add_infinity (ofPoint _)
    | some x₂ y₂ h₂ =>
      by_cases hx : x₁ = x₂
      · subst hx
        by_cases hy : y₁ = y₂
        · subst hy
          rw [add_self, double_ofPoint hc]
        · -- Two points of one abscissa that differ are opposite.
          have hopp := (Y_eq_of_X_eq h₁.left h₂.left rfl).resolve_left hy
          rw [Point.add_of_Y_eq rfl hopp, ofPoint_some, ofPoint_some, add_point_of_eq x₁ hy,
            ofPoint_zero]
      · -- The slope of the chord has the opposite signs above and below.
        rw [ofPoint_add_some h₁ h₂ fun hxy => hx hxy.left, ofPoint_some, ofPoint_some,
          add_point_of_ne y₁ y₂ hx, slope_of_X_ne hx, ← neg_sub y₁, ← neg_sub x₁, neg_div_neg_eq]

end Group

/-- The points of an accepted curve of prime modulus form an abelian group: sums, doublings and
opposites exist, are points of the curve and have coordinates in its field, and the laws of a group
hold with equality of coordinates. -/
theorem onCurve_abelianGroup {c : Curve} (hc : c.Accepted) (hp : c.p.Prime) {P Q R : Affine}
    (hP : P.OnCurve c) (hQ : Q.OnCurve c) (hR : R.OnCurve c) :
    (∃ S, P.add Q c = .ok S ∧ S.OnCurve c ∧ S.InField c.p) ∧
    (∃ D, P.double c = .ok D ∧ D.OnCurve c ∧ D.InField c.p) ∧
    (∃ N, P.negate = .ok N ∧ N.OnCurve c ∧ N.InField c.p ∧ P.add N c = .ok .infinity) ∧
    P.add Q c = Q.add P c ∧
    (P.add Q c >>= fun S => S.add R c) = (Q.add R c >>= fun S => P.add S c) ∧
    P.add .infinity c = .ok P ∧
    Affine.infinity.add P c = .ok P ∧
    P.double c = P.add P c := by
  have := Fact.mk hp
  have hk := hc.checks
  have closed (S : c.Point) : (ofPoint S).OnCurve c ∧ (ofPoint S).InField c.p :=
    ⟨onCurve_ofPoint hk S, (onCurve_ofPoint hk S).inField⟩
  -- The three points are points of the elliptic curve, whose laws are those of a group.
  obtain ⟨P, rfl⟩ := hP.exists_ofPoint hk
  obtain ⟨Q, rfl⟩ := hQ.exists_ofPoint hk
  obtain ⟨R, rfl⟩ := hR.exists_ofPoint hk
  refine ⟨⟨_, add_ofPoint hk P Q, closed (P + Q)⟩, ⟨_, double_ofPoint hk P, closed (P + P)⟩,
    ⟨_, negate_ofPoint P, (closed (-P)).left, (closed (-P)).right, ?_⟩, ?_, ?_, add_infinity _,
    infinity_add _, (add_self _).symm⟩
  · rw [add_ofPoint hk, add_neg_cancel, ofPoint_zero]
  · rw [add_ofPoint hk, add_ofPoint hk, add_comm]
  · rw [add_ofPoint hk, add_ofPoint hk, ok_bind, ok_bind, add_ofPoint hk, add_ofPoint hk,
      add_assoc]

/-- On the curve with 13 points the sum of the generator, itself and its opposite does not depend
on the order of addition. -/
theorem thirteen_abelianGroup :
    let G : Affine := .point ⟨4, 19⟩ ⟨3, 19⟩
    let N : Affine := .point ⟨4, 19⟩ ⟨16, 19⟩
    G.OnCurve Curve.thirteen ∧ N.OnCurve Curve.thirteen ∧
      (G.add G Curve.thirteen >>= fun S => S.add N Curve.thirteen) =
        (G.add N Curve.thirteen >>= fun S => G.add S Curve.thirteen) := by
  intro G N
  have hG : G.OnCurve Curve.thirteen := ⟨⟨by decide, by decide⟩, by rfl⟩
  have hN : N.OnCurve Curve.thirteen := ⟨⟨by decide, by decide⟩, by rfl⟩
  obtain ⟨-, -, -, -, assoc, -⟩ :=
    onCurve_abelianGroup Curve.accepted_thirteen Curve.prime_p_thirteen hG hG hN
  exact ⟨hG, hN, assoc⟩

end EllipticSignatures.Affine
