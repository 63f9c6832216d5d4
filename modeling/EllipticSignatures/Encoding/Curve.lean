import EllipticSignatures.Curve.Parameters
import EllipticSignatures.Curve.Scalar
import EllipticSignatures.Encoding.Record

/-!
# Stored field elements, points and scalars

A field element is stored with its modulus, a point as a tagged choice between the identity and
its coordinates. Reading checks that elements are reduced under a modulus above one and that
scalars lie in the range of `Curve.secp256k1`; it does not check that points lie on a curve.
-/

namespace EllipticSignatures

namespace FieldElement

/-- The record: residue, then modulus. -/
def toRecord (a : FieldElement) : Bytes := Record.number a.value ++ Record.number a.modulus

/-- The text form of the record. -/
def toJson (a : FieldElement) : String :=
  JsonText.object [("value", JsonText.digits a.value), ("modulus", JsonText.digits a.modulus)]

/-- Takes an element, which must be reduced under a modulus above one. -/
def reader : Record.Reader FieldElement := do
  let value ← Record.takeNumber
  let modulus ← Record.takeNumber
  if modulus ≤ 1 then throw .smallModulus
  else if modulus ≤ value then throw .unreduced
  else return ⟨value, modulus⟩

/-- The element at the front of the bytes. -/
def ofRecord : Bytes → Except RecordError FieldElement := Record.read reader

end FieldElement

/-- The tag of the identity in the record of a point. -/
def Record.infinityTag : Nat := 0

/-- The tag of a point with coordinates in the record of a point. -/
def Record.pointTag : Nat := 1

/-- The text form of the identity. -/
def JsonText.infinity : String := "\"Infinity\""

/-- The text form of a point with coordinates. -/
def JsonText.point (coordinates : List (String × FieldElement)) : String :=
  object [("Point", object (coordinates.map fun (name, a) => (name, a.toJson)))]

namespace Affine

/-- The record: a tag, then the coordinates. -/
def toRecord : Affine → Bytes
  | .infinity => Record.word 4 Record.infinityTag
  | .point x y => Record.word 4 Record.pointTag ++ x.toRecord ++ y.toRecord

/-- The text form of the record. -/
def toJson : Affine → String
  | .infinity => JsonText.infinity
  | .point x y => JsonText.point [("x", x), ("y", y)]

/-- Takes a point. -/
def reader : Record.Reader Affine := do
  let tag ← Record.takeWord 4
  if tag = Record.infinityTag then return .infinity
  else if tag = Record.pointTag then
    let x ← FieldElement.reader
    return .point x (← FieldElement.reader)
  else throw (.unknownVariant tag)

/-- The point at the front of the bytes. -/
def ofRecord : Bytes → Except RecordError Affine := Record.read reader

end Affine

namespace Projective

/-- The record: a tag, then the coordinates as they are. -/
def toRecord : Projective → Bytes
  | .infinity => Record.word 4 Record.infinityTag
  | .point x y z => Record.word 4 Record.pointTag ++ x.toRecord ++ y.toRecord ++ z.toRecord

/-- The text form of the record. -/
def toJson : Projective → String
  | .infinity => JsonText.infinity
  | .point x y z => JsonText.point [("x", x), ("y", y), ("z", z)]

/-- Takes a point. -/
def reader : Record.Reader Projective := do
  let tag ← Record.takeWord 4
  if tag = Record.infinityTag then return .infinity
  else if tag = Record.pointTag then
    let x ← FieldElement.reader
    let y ← FieldElement.reader
    return .point x y (← FieldElement.reader)
  else throw (.unknownVariant tag)

/-- The point at the front of the bytes. -/
def ofRecord : Bytes → Except RecordError Projective := Record.read reader

end Projective

namespace Scalar

/-- The record: the number. -/
def toRecord (s : Scalar) : Bytes := Record.number s.value

/-- The text form of the record. -/
def toJson (s : Scalar) : String := JsonText.object [("value", JsonText.digits s.value)]

/-- Takes a scalar of `Curve.secp256k1`. -/
def reader : Record.Reader Scalar := do
  match ofNat (← Record.takeNumber) Curve.secp256k1 with
  | .ok s => return s
  | .error cause => throw (.curve cause)

/-- The scalar at the front of the bytes. -/
def ofRecord : Bytes → Except RecordError Scalar := Record.read reader

end Scalar

end EllipticSignatures
