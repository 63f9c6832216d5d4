import EllipticSignatures.Curve.Scalar
import EllipticSignatures.Random.Source

/-!
# Uniform sampling by rejection

A number below a bound is drawn from blocks of as many bytes as the bound has. The candidate of a
block keeps as many low bits as the bound has, and candidates that are not below the bound are
rejected, so that each remaining number belongs to equally many blocks.
-/

namespace EllipticSignatures

namespace Draw

variable {ε : Type}

/-- The candidate of a block: its big-endian number cut to the bit length of the bound. -/
def candidate (bound : Nat) (block : Bytes) : Nat := block.toNat % (1 <<< bitLength bound)

/-- A uniform number below `bound`, which must not be zero. -/
def below (bound : Nat) : Draw ε Nat := do
  if bound = 0 then throw (.fault .emptyRange)
  else
    retry do
      let value := candidate bound (← fill (byteLength bound))
      return if value < bound then some value else none

/-- A uniform number between one and `bound` less one; the bound must exceed one. -/
def nonzeroBelow (bound : Nat) : Draw ε Nat := do
  if bound ≤ 1 then throw (.fault .trivialRange)
  else
    retry do
      let value ← below bound
      return if value ≠ 0 then some value else none

end Draw

/-- A uniform scalar of the curve. -/
def Scalar.random {ε : Type} (c : Curve) : Draw ε Scalar :=
  Draw.retry do return (Scalar.ofNat (← Draw.nonzeroBelow c.n) c).toOption

/-- A uniform element of the field of coordinates. -/
def FieldElement.random {ε : Type} (c : Curve) : Draw ε FieldElement := do
  let value ← Draw.below c.p
  (c.baseElement value : Outcome ε FieldElement)

end EllipticSignatures
