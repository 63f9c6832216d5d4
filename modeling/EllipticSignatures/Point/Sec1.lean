import EllipticSignatures.Curve.Scalar
import EllipticSignatures.Point.Affine

/-!
# Encodings of finite points

A finite point is written as a tag followed by big-endian coordinates. The compressed form holds
the abscissa and the parity of the ordinate in the tag, the uncompressed form both coordinates.
The identity has no encoding.
-/

namespace EllipticSignatures

/-- The forms of an encoded point. -/
inductive PointFormat where
  /-- The abscissa and the parity of the ordinate. -/
  | compressed
  /-- Both coordinates. -/
  | uncompressed
  deriving DecidableEq, Repr

namespace Affine

/-- The tag of a compressed point, by the parity of the ordinate. -/
def parityTag (odd : Bool) : UInt8 := if odd then 0x03 else 0x02

/-- The tag of an uncompressed point. -/
def uncompressedTag : UInt8 := 0x04

/-- The compressed form. -/
def toCompressed (P : Affine) (c : Curve) : Outcome CurveError Bytes :=
  match P with
  | .infinity => Outcome.refuse .invalidPoint
  | .point x y => do return parityTag y.isOdd :: (← x.toBytes c.fieldBytes)

/-- The uncompressed form. -/
def toUncompressed (P : Affine) (c : Curve) : Outcome CurveError Bytes :=
  match P with
  | .infinity => Outcome.refuse .invalidPoint
  | .point x y => do
    let first ← x.toBytes c.fieldBytes
    return uncompressedTag :: (first ++ (← y.toBytes c.fieldBytes))

/-- The given form. -/
def toSec1 (P : Affine) (format : PointFormat) (c : Curve) : Outcome CurveError Bytes :=
  match format with
  | .compressed => P.toCompressed c
  | .uncompressed => P.toUncompressed c

/-- Reads the abscissa after a tag that names the parity of the ordinate. -/
def ofCompressedBody (odd : Bool) (body : Bytes) (c : Curve) : Outcome CurveError Affine := do
  if body.length ≠ c.fieldBytes then
    Outcome.refuse (.invalidEncoding .compressedLength)
  else
    let x ← Outcome.ofExcept (FieldElement.ofCanonicalBytes body c.p)
    match ← liftX x odd c with
    | some P => return P
    | none => Outcome.refuse .invalidPoint

/-- Reads both coordinates after the tag of an uncompressed point. -/
def ofUncompressedBody (body : Bytes) (c : Curve) : Outcome CurveError Affine := do
  if body.length ≠ 2 * c.fieldBytes then
    Outcome.refuse (.invalidEncoding .uncompressedLength)
  else
    let x ← Outcome.ofExcept (FieldElement.ofCanonicalBytes (body.take c.fieldBytes) c.p)
    let y ← Outcome.ofExcept (FieldElement.ofCanonicalBytes (body.drop c.fieldBytes) c.p)
    if ← isOnCurve (.point x y) c then return .point x y
    else Outcome.refuse .invalidPoint

/-- The finite point of the curve that the bytes encode in either form. -/
def ofSec1 (bytes : Bytes) (c : Curve) : Outcome CurveError Affine :=
  match bytes with
  | [] => Outcome.refuse (.invalidEncoding .emptyPoint)
  | tag :: body =>
    if tag = parityTag false then ofCompressedBody false body c
    else if tag = parityTag true then ofCompressedBody true body c
    else if tag = uncompressedTag then ofUncompressedBody body c
    else Outcome.refuse (.invalidEncoding .unknownTag)

end Affine

end EllipticSignatures
