import EllipticSignatures.Field.Element

/-!
# Quadratic residues and square roots

The quadratic character is computed by Euler's criterion and square roots by Cipolla's method: the
least `t` for which `ω = t² - a` is a non-residue makes `F(√ω)` a field of `p²` elements, where
`(t + √ω) ^ ((p + 1) / 2)` is a root of `a`.

A modulus that is not prime is answered by the same formulas. A root is returned only if its
square is the element.
-/

namespace EllipticSignatures

namespace FieldElement

/-- The quadratic character: zero, or one for a residue, or minus one, by Euler's criterion. -/
def legendre (a : FieldElement) : Checked Int :=
  if a.isZero then .ok 0
  else do
    let symbol ← a.pow ((← Checked.sub a.modulus 1) >>> 1)
    return if symbol.value = 1 then 1 else -1

/-- The element is a nonzero square. -/
def isSquare (a : FieldElement) : Checked Bool := do return (← a.legendre) == 1

end FieldElement

/-- An element `re + im * √ω` of a quadratic extension of a prime field. -/
structure QuadraticElement where
  /-- The coefficient of one. -/
  re : FieldElement
  /-- The coefficient of the adjoined root. -/
  im : FieldElement
  /-- The square of the adjoined root. -/
  omega : FieldElement
  deriving DecidableEq, Repr

namespace QuadraticElement

/-- The product. -/
def mul (a b : QuadraticElement) : Checked QuadraticElement := do
  let re ← (← a.re.mul b.re).add (← (← a.im.mul b.im).mul a.omega)
  let im ← (← a.re.mul b.im).add (← a.im.mul b.re)
  return ⟨re, im, a.omega⟩

/-- The power with a natural exponent, by squaring from the highest bit. -/
def pow (a : QuadraticElement) (exponent : Nat) : Checked QuadraticElement := do
  let unit ← FieldElement.one a.re.modulus
  let step (acc : QuadraticElement) (i : Nat) : Checked QuadraticElement := do
    let squared ← acc.mul acc
    if exponent.testBit i then squared.mul a else return squared
  Bits.descend step (bitLength exponent) ⟨unit, FieldElement.zero a.re.modulus, a.omega⟩

end QuadraticElement

namespace FieldElement

/-- What the search for a base of the quadratic extension finds. -/
inductive ExtensionBase where
  /-- A square root of the element itself. -/
  | root (t : FieldElement)
  /-- An element `t` and the non-residue `t² - a`. -/
  | nonResidue (t omega : FieldElement)
  deriving DecidableEq, Repr

/-- Tries `t`, `t + 1`, … until `t² - a` is zero or a non-residue, at most `tries` times. -/
def searchBase (a unit : FieldElement) : (tries : Nat) → (t : FieldElement) → Checked ExtensionBase
  | 0, _ => .error .endlessSearch
  | tries + 1, t => do
    let candidate ← (← t.square).sub a
    let symbol ← candidate.legendre
    if symbol = -1 then return .nonResidue t candidate
    else if symbol = 0 then return .root t
    else searchBase a unit tries (← t.add unit)

/-- The square root found with the least base; there is none if the element is a non-residue.

The search starts at zero and visits each residue once before it would repeat itself. -/
def sqrt (a : FieldElement) : Checked (Option FieldElement) := do
  let symbol ← a.legendre
  if symbol = 0 then return some a
  else if symbol = -1 then return none
  else
    let unit ← one a.modulus
    match ← searchBase a unit a.modulus (zero a.modulus) with
    | .root t => return some t
    | .nonResidue t omega =>
      let exponent := (a.modulus + 1) >>> 1
      let root := (← QuadraticElement.pow ⟨t, unit, omega⟩ exponent).re
      return if (← root.square) = a then some root else none

end FieldElement

end EllipticSignatures
