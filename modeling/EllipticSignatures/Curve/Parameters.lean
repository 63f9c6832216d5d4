import EllipticSignatures.Point.Multiplication

/-!
# Accepted curves

`Curve.ofParameters` builds a curve from numbers and refuses those that cannot describe one: the
modulus has to be odd and above three, the cubic free of repeated roots, the generator a point of
the curve, and the group order a multiple of the order of the generator. Whether the modulus and
the group order are prime is not checked.
-/

namespace EllipticSignatures.Curve

/-- The curve without any check; a zero modulus is a fault. -/
def assemble (name : String) (p n a b gx gy : Nat) : Checked Curve := do
  return {
    name, p, n
    a := ← FieldElement.ofNat a p
    b := ← FieldElement.ofNat b p
    generator := .point (← FieldElement.ofNat gx p) (← FieldElement.ofNat gy p) }

/-- The value `4 a³ + 27 b²`, which is zero exactly if the cubic has a repeated root. -/
def discriminant (c : Curve) : Checked FieldElement := do
  let cubic ← (← c.a.cube).mul (← c.baseElement 4)
  cubic.add (← (← c.b.square).mul (← c.baseElement 27))

/-- The generator times the group order is the identity. -/
def annihilatesGenerator (c : Curve) : Checked Bool := do
  let G ← Projective.ofAffine c.generator
  return (← PointGroup.scalarMul G c.n c).isInfinity

/-- The curve with the given field modulus, group order, coefficients and generator. -/
def ofParameters (name : String) (p n a b gx gy : Nat) : Outcome CurveError Curve := do
  let reject (cause : ParameterError) : Outcome CurveError Curve :=
    Outcome.refuse (.invalidParameters cause)
  if p ≤ 3 ∨ p % 2 = 0 then reject .fieldModulus
  else if n ≤ 1 then reject .groupOrder
  else if p ≤ gx ∨ p ≤ gy then reject .generatorRange
  else
    let c ← assemble name p n a b gx gy
    if (← c.discriminant).isZero then reject .singular
    else if !(← c.generator.isOnCurve c) then reject .generatorOffCurve
    else if !(← c.annihilatesGenerator) then reject .wrongOrder
    else return c

/-- The curve has passed every check of `ofParameters`. -/
def Accepted (c : Curve) : Prop :=
  ∃ p n a b gx gy : Nat, ofParameters c.name p n a b gx gy = .ok c

/-- The curve `y² = x³ + 7` over the field of `2²⁵⁶ - 2³² - 977` elements, with cofactor one. -/
def secp256k1 : Curve :=
  let p := 0xfffffffffffffffffffffffffffffffffffffffffffffffffffffffefffffc2f
  { name := "secp256k1"
    p := p
    n := 0xfffffffffffffffffffffffffffffffebaaedce6af48a03bbfd25e8cd0364141
    a := ⟨0, p⟩
    b := ⟨7, p⟩
    generator := .point
      ⟨0x79be667ef9dcbbac55a06295ce870b07029bfcdb2dce28d959f2815b16f81798, p⟩
      ⟨0x483ada7726a3c4655da4fbfc0e1108a8fd17b448a68554199c47d08ffb10d4b8, p⟩ }

end EllipticSignatures.Curve
