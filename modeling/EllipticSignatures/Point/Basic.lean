import EllipticSignatures.Field.Sqrt

/-!
# Points in affine and homogeneous coordinates

`Affine` is the identity or a pair of coordinates, `Projective` the identity or a triple
`(X : Y : Z)` that stands for `(X / Z, Y / Z)`. Neither type asks its coordinates to satisfy a
curve equation. A triple with `Z = 0` stands for the identity too; `Projective.parts` is the view
of a point that makes no difference between the two.
-/

namespace EllipticSignatures

/-- A point in affine coordinates. -/
inductive Affine where
  /-- The identity. -/
  | infinity
  /-- A finite point. -/
  | point (x y : FieldElement)
  deriving DecidableEq, Repr

/-- A point in homogeneous coordinates. -/
inductive Projective where
  /-- The identity. -/
  | infinity
  /-- The point `(x / z, y / z)`, or the identity if `z` is zero. -/
  | point (x y z : FieldElement)
  deriving DecidableEq, Repr

namespace Affine

/-- The coordinates of a finite point. -/
def coordinates : Affine → Option (FieldElement × FieldElement)
  | .infinity => none
  | .point x y => some (x, y)

/-- The point is the identity. -/
def isInfinity : Affine → Bool
  | .infinity => true
  | .point _ _ => false

end Affine

namespace Projective

/-- The triple, as the identity if `z` is zero. -/
def ofCoordinates (x y z : FieldElement) : Projective :=
  if z.isZero then .infinity else .point x y z

/-- The coordinates of a point other than the identity. -/
def parts : Projective → Option (FieldElement × FieldElement × FieldElement)
  | .infinity => none
  | .point x y z => if z.isZero then none else some (x, y, z)

/-- The point is the identity. -/
def isInfinity (P : Projective) : Bool := P.parts.isNone

/-- The affine point, by one inversion of `z`. -/
def toAffine (P : Projective) : Checked Affine :=
  match P.parts with
  | none => .ok .infinity
  | some (x, y, z) =>
    match z.invert with
    | .ok inverse => do return .point (← x.mul inverse) (← y.mul inverse)
    | .error (.refused _) => .ok .infinity
    | .error (.fault fault) => .error fault

/-- The triple with `z = 1`. -/
def ofAffine : Affine → Checked Projective
  | .infinity => .ok .infinity
  | .point x y => do return ofCoordinates x y (← FieldElement.one x.modulus)

/-- Both points are the identity, or their coordinates are proportional. -/
def same (P Q : Projective) : Checked Bool :=
  match P.parts, Q.parts with
  | none, none => .ok true
  | some (x₁, y₁, z₁), some (x₂, y₂, z₂) => do
    if z₁.modulus ≠ z₂.modulus then return false
    else if (← x₁.mul z₂) ≠ (← x₂.mul z₁) then return false
    else return (← y₁.mul z₂) = (← y₂.mul z₁)
  | _, _ => .ok false

end Projective

end EllipticSignatures
