import EllipticSignatures.Point.Affine
import EllipticSignatures.Point.Projective

/-!
# Multiples of points

`PointGroup` names the operations that both representations share; multiplication by a scalar and
sums of multiples are written once over it. Multiplication reads the scalar from its highest bit,
`ascendingMul` from its lowest, and `jointMul` reads two scalars at once with the sum of both
points prepared.
-/

namespace EllipticSignatures

/-- The operations of a representation of points. -/
class PointGroup (G : Type) where
  /-- The identity. -/
  identity : G
  /-- The point is the identity. -/
  isIdentity : G → Bool
  /-- The generator of a curve. -/
  generator : Curve → Checked G
  /-- The sum of two points. -/
  add : G → G → Curve → Checked G
  /-- The sum of a point with itself. -/
  double : G → Curve → Checked G
  /-- The opposite point. -/
  negate : G → Checked G

instance : PointGroup Affine where
  identity := .infinity
  isIdentity := Affine.isInfinity
  generator c := .ok c.generator
  add := Affine.add
  double := Affine.double
  negate := Affine.negate

instance : PointGroup Projective where
  identity := .infinity
  isIdentity := Projective.isInfinity
  generator c := Projective.ofAffine c.generator
  add := Projective.add
  double := Projective.double
  negate := Projective.negate

namespace PointGroup

variable {G : Type} [PointGroup G]

/-- The difference of two points. -/
def sub (P Q : G) (c : Curve) : Checked G := do add P (← negate Q) c

/-- The multiple of a point, by doubling and adding from the highest bit of the scalar. -/
def scalarMul (P : G) (k : Nat) (c : Curve) : Checked G :=
  if isIdentity P then .ok identity
  else
    let step (acc : G) (i : Nat) : Checked G := do
      let doubled ← double acc c
      if k.testBit i then add doubled P c else return doubled
    Bits.descend step (bitLength k) identity

/-- Adds the doublings of `power` at the set bits of `k`, from the lowest bit. -/
def ascend (k : Nat) (c : Curve) : (positions : List Nat) → (acc power : G) → Checked G
  | [], acc, _ => .ok acc
  | i :: positions, acc, power => do
    let acc ← if k.testBit i then add acc power c else .ok acc
    ascend k c positions acc (← double power c)

/-- The multiple of a point, by adding its doublings at the set bits of the scalar. -/
def ascendingMul (P : G) (k : Nat) (c : Curve) : Checked G :=
  if k = 0 then .ok identity
  else if k = 1 then .ok P
  else ascend k c (List.range (bitLength k)) identity P

/-- The sum of multiples of points, added in order; as many scalars as points are needed. -/
def multiMul (points : List G) (scalars : List Nat) (c : Curve) : Checked G :=
  if points.length = scalars.length then
    (points.zip scalars).foldlM (fun acc (P, k) => do add acc (← scalarMul P k c) c) identity
  else .error .lengthMismatch

/-- The sum `j P + k Q`, reading both scalars together from the highest bit. -/
def jointMul (j : Nat) (P : G) (k : Nat) (Q : G) (c : Curve) : Checked G := do
  let sum ← add P Q c
  let step (acc : G) (i : Nat) : Checked G := do
    let doubled ← double acc c
    match j.testBit i, k.testBit i with
    | true, true => add doubled sum c
    | true, false => add doubled P c
    | false, true => add doubled Q c
    | false, false => return doubled
  Bits.descend step (max (bitLength j) (bitLength k)) identity

end PointGroup

/-- The sum `j G + k P` with the generator `G` of the curve. -/
def Projective.jointMulGenerator (j k : Nat) (P : Projective) (c : Curve) : Checked Projective := do
  PointGroup.jointMul j (← PointGroup.generator c) k P c

end EllipticSignatures
