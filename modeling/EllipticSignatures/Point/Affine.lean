import EllipticSignatures.Curve.Basic

/-!
# The chord and tangent law

Addition of points in affine coordinates. Each case divides only after the case of a zero
divisor has been answered: equal abscissas are a doubling or a sum of opposite points, and a
doubling at `y = 0` is the identity.
-/

namespace EllipticSignatures.Affine

/-- The point is the identity, or its coordinates lie in the field of the curve and satisfy the
curve equation. -/
def isOnCurve (P : Affine) (c : Curve) : Checked Bool :=
  match P with
  | .infinity => .ok true
  | .point x y => do
    if x.modulus ≠ c.p ∨ y.modulus ≠ c.p then return false
    else return (← y.square) = (← c.rhs x)

/-- The finite point with the given abscissa and the given parity of the ordinate. -/
def liftX (x : FieldElement) (odd : Bool) (c : Curve) : Checked (Option Affine) := do
  match ← (← c.rhs x).sqrt with
  | none => return none
  | some y => return some (.point x (← if y.isOdd = odd then .ok y else y.neg))

/-- The sum of a point with itself, by the slope of the tangent. -/
def double (P : Affine) (c : Curve) : Checked Affine :=
  match P with
  | .infinity => .ok .infinity
  | .point x y => do
    -- The tangent is vertical.
    if y.isZero then return .infinity
    else
      let xx ← x.square
      let numerator ← (← (← xx.double).add xx).add c.a
      let slope ← numerator.div (← y.double)
      let x₃ ← (← slope.square).sub (← x.double)
      let y₃ ← (← slope.mul (← x.sub x₃)).sub y
      return .point x₃ y₃

/-- The opposite point. -/
def negate : Affine → Checked Affine
  | .infinity => .ok .infinity
  | .point x y => do return .point x (← y.neg)

/-- The sum of two points, by the slope of the chord. -/
def add (P Q : Affine) (c : Curve) : Checked Affine :=
  match P, Q with
  | .infinity, Q => .ok Q
  | P, .infinity => .ok P
  | .point x₁ y₁, .point x₂ y₂ => do
    if x₁ = x₂ then
      if y₁ = y₂ then double (.point x₁ y₁) c else return .infinity
    else
      let slope ← (← y₂.sub y₁).div (← x₂.sub x₁)
      let x₃ ← (← (← slope.square).sub x₁).sub x₂
      let y₃ ← (← slope.mul (← x₁.sub x₃)).sub y₁
      return .point x₃ y₃

end EllipticSignatures.Affine
