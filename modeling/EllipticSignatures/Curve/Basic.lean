import EllipticSignatures.Point.Basic

/-!
# Short Weierstrass curves

A `Curve` is the equation `y² = x³ + a x + b` over a prime field together with a generator and a
group order. The type is plain data; `Curve.ofParameters` in `Curve.Parameters` is the way to a
curve whose numbers have been checked.
-/

namespace EllipticSignatures

/-- A curve, its generator and the order of the group that signatures use. -/
structure Curve where
  /-- The name. -/
  name : String
  /-- The field modulus. -/
  p : Nat
  /-- The group order. -/
  n : Nat
  /-- The coefficient of `x`. -/
  a : FieldElement
  /-- The constant coefficient. -/
  b : FieldElement
  /-- The generator. -/
  generator : Affine
  deriving DecidableEq, Repr

namespace Curve

/-- The number of bytes of a coordinate. -/
def fieldBytes (c : Curve) : Nat := byteLength c.p

/-- The number of bytes of a scalar. -/
def scalarBytes (c : Curve) : Nat := byteLength c.n

/-- The residue of a number in the field of coordinates. -/
def baseElement (c : Curve) (value : Nat) : Checked FieldElement := FieldElement.ofNat value c.p

/-- The residue of a number modulo the group order. -/
def scalarElement (c : Curve) (value : Nat) : Checked FieldElement := FieldElement.ofNat value c.n

/-- The right-hand side `x³ + a x + b` of the curve equation. -/
def rhs (c : Curve) (x : FieldElement) : Checked FieldElement := do
  (← (← x.cube).add (← c.a.mul x)).add c.b

end Curve

end EllipticSignatures
