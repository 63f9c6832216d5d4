import EllipticSignatures.Curve.Basic

/-!
# Addition without inversions

Addition of points in homogeneous coordinates. The case distinctions of the chord and tangent law
are made by cross-multiplication, and the slope is kept as a fraction `n / d` whose denominator is
absorbed into `Z`.
-/

namespace EllipticSignatures.Projective

/-- The point is the identity, or its first coordinate lies in the field of the curve and the
homogeneous curve equation `Y² Z = X³ + a X Z² + b Z³` holds. -/
def isOnCurve (P : Projective) (c : Curve) : Checked Bool :=
  match P.parts with
  | none => .ok true
  | some (x, y, z) => do
    if x.modulus ≠ c.p then return false
    else
      let zz ← z.square
      let lhs ← (← y.square).mul z
      let cubic ← (← x.cube).add (← (← c.a.mul x).mul zz)
      let rhs ← cubic.add (← c.b.mul (← zz.mul z))
      return lhs = rhs

/-- The sum of a point with itself. -/
def double (P : Projective) (c : Curve) : Checked Projective :=
  match P.parts with
  | none => .ok .infinity
  | some (x, y, z) => do
    -- The tangent is vertical.
    if y.isZero then return .infinity
    else
      -- The slope is `n / d` with `n = 3 x² + a z²` and `d = 2 y z`.
      let d ← (← y.mul z).double
      let dd ← d.square
      let ddd ← dd.mul d
      let xx ← x.square
      let n ← (← (← xx.double).add xx).add (← c.a.mul (← z.square))
      let nn ← n.square
      -- `x₃ = n² d z - 2 d³ x`
      let x₃ ← (← (← nn.mul d).mul z).sub (← (← ddd.mul x).double)
      -- `y₃ = 3 x n d² - n³ z - y d³`
      let xndd ← (← x.mul n).mul dd
      let tripled ← (← xndd.double).add xndd
      let y₃ ← (← tripled.sub (← (← nn.mul n).mul z)).sub (← y.mul ddd)
      let z₃ ← z.mul ddd
      return ofCoordinates x₃ y₃ z₃

/-- The opposite point. -/
def negate (P : Projective) : Checked Projective :=
  match P.parts with
  | none => .ok .infinity
  | some (x, y, z) => do return ofCoordinates x (← y.neg) z

/-- The sum of two points. -/
def add (P Q : Projective) (c : Curve) : Checked Projective :=
  match P.parts, Q.parts with
  | none, _ => .ok Q
  | _, none => .ok P
  | some (x₁, y₁, z₁), some (x₂, y₂, z₂) => do
    let xz ← x₁.mul z₂
    let zx ← x₂.mul z₁
    -- The abscissas agree, so the points are equal or opposite.
    if xz = zx then
      if (← y₁.mul z₂) = (← y₂.mul z₁) then double P c else return .infinity
    else
      -- The slope is `n / d` with `n = y₂ z₁ - y₁ z₂` and `d = x₂ z₁ - x₁ z₂`.
      let d ← zx.sub xz
      let n ← (← y₂.mul z₁).sub (← y₁.mul z₂)
      let dd ← d.square
      let ddd ← dd.mul d
      let nn ← n.square
      let zz ← z₁.mul z₂
      -- `x₃ = z₁ z₂ n² d - d³ (x₁ z₂ + x₂ z₁)`
      let x₃ ← (← (← zz.mul nn).mul d).sub (← ddd.mul (← xz.add zx))
      -- `y₃ = d² n (2 x₁ z₂ + x₂ z₁) - n³ z₁ z₂ - y₁ d³ z₂`
      let first ← (← dd.mul n).mul (← (← xz.double).add zx)
      let second ← (← nn.mul n).mul zz
      let y₃ ← (← first.sub second).sub (← (← y₁.mul ddd).mul z₂)
      let z₃ ← ddd.mul zz
      return ofCoordinates x₃ y₃ z₃

end EllipticSignatures.Projective
