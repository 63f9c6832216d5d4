import EllipticSignatures.Curve.Basic
import EllipticSignatures.Text.Blank

/-!
# Scalars

A `Scalar` is a number between one and the group order of the curve it was made for. It does not
remember that curve: operations take the curve to work on, which may be another one.
-/

namespace EllipticSignatures

/-- A multiplier of points. -/
structure Scalar where
  /-- The number. -/
  value : Nat
  deriving DecidableEq, Repr

/-- The number is a scalar of the curve: nonzero and below the group order. -/
def Curve.inScalarRange (c : Curve) (value : Nat) : Bool := value != 0 && decide (value < c.n)

namespace Scalar

/-- The scalar with the given value, which must lie between one and the group order less one. -/
def ofNat (value : Nat) (c : Curve) : Except CurveError Scalar :=
  if c.inScalarRange value then .ok ⟨value⟩ else .error .invalidScalar

/-- The scalar written by at most as many big-endian bytes as the group order has. -/
def ofBytes (bytes : Bytes) (c : Curve) : Except CurveError Scalar :=
  if c.scalarBytes < bytes.length then .error (.invalidEncoding .scalarTooWide)
  else ofNat bytes.toNat c

/-- The scalar written in hexadecimal, with white space around it ignored. -/
def ofHexadecimal (text : String) (c : Curve) : Except CurveError Scalar :=
  match Hexadecimal.decode? (Blank.trim text) with
  | some bytes => ofBytes bytes c
  | none => .error (.invalidEncoding .notHexadecimal)

/-- The residue of the scalar modulo the group order. -/
def toField (s : Scalar) (c : Curve) : Checked FieldElement := c.scalarElement s.value

/-- The residue of the scalar as big-endian bytes, as many as the group order has. -/
def toBytes (s : Scalar) (c : Curve) : Checked Bytes := do (← s.toField c).toBytes c.scalarBytes

/-- The group order less the scalar. -/
def negate (s : Scalar) (c : Curve) : Checked Scalar := do return ⟨← Checked.sub c.n s.value⟩

/-- The number in hexadecimal inside the name of its type. -/
def describe (s : Scalar) : String := "Scalar(0x" ++ Hexadecimal.ofNat s.value ++ ")"

end Scalar

end EllipticSignatures
