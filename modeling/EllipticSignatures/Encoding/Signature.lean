import EllipticSignatures.Encoding.Curve
import EllipticSignatures.Signature.Message
import EllipticSignatures.Signature.Schnorr

/-!
# Stored keys and signatures

Keys and message signatures are stored as byte strings after their length, an ECDSA signature as
two numbers, a Schnorr signature as its 64 bytes alone. A stored key does not name its curve:
reading takes it for a key on `Curve.secp256k1`.
-/

namespace EllipticSignatures

namespace EcdsaSignature

/-- The record: both numbers. -/
def toRecord (sig : EcdsaSignature) : Bytes := Record.number sig.r ++ Record.number sig.s

/-- The text form of the record. -/
def toJson (sig : EcdsaSignature) : String :=
  JsonText.object [("r", JsonText.digits sig.r), ("s", JsonText.digits sig.s)]

/-- Takes two numbers. -/
def reader : Record.Reader EcdsaSignature := do
  let r ← Record.takeNumber
  return ⟨r, ← Record.takeNumber⟩

/-- The signature at the front of the bytes. -/
def ofRecord : Bytes → Except RecordError EcdsaSignature := Record.read reader

end EcdsaSignature

namespace SchnorrSignature

/-- The record: the bytes of both numbers. -/
def toRecord (sig : SchnorrSignature) : Bytes := sig.toBytes

/-- The text form of the record. -/
def toJson (sig : SchnorrSignature) : String :=
  JsonText.object
    [("r", JsonText.byteString sig.r.bytes), ("s", JsonText.byteString sig.s.bytes)]

/-- Takes 32 bytes. -/
def blockReader : Record.Reader (Block 32) := do
  match Block.ofBytes? 32 (← Record.takeBytes 32) with
  | some block => return block
  | none => throw .truncated

/-- Takes two blocks. -/
def reader : Record.Reader SchnorrSignature := do
  let r ← blockReader
  return ⟨r, ← blockReader⟩

/-- The signature at the front of the bytes. -/
def ofRecord : Bytes → Except RecordError SchnorrSignature := Record.read reader

end SchnorrSignature

namespace MessageSignature

/-- The record: the bytes after their length. -/
def toRecord (sig : MessageSignature) : Bytes := Record.byteString sig.toBytes

/-- The text form of the record. -/
def toJson (sig : MessageSignature) : String := JsonText.byteString sig.toBytes

/-- The signature whose byte string is at the front of the bytes. -/
def ofRecord (bytes : Bytes) : Except RecordError MessageSignature := do
  (ofBytes (← Record.read Record.takeByteString bytes)).mapError RecordError.signature

end MessageSignature

namespace SigningKey

/-- The record: the bytes of the scalar after their length. -/
def toRecord (key : SigningKey) : Checked Bytes := do return Record.byteString (← key.toBytes)

/-- The text form of the record. -/
def toJson (key : SigningKey) : Checked String := do return JsonText.byteString (← key.toBytes)

/-- The key whose byte string is at the front of the bytes. -/
def ofRecord (bytes : Bytes) : Except RecordError SigningKey := do
  (ofBytes (← Record.read Record.takeByteString bytes)).mapError RecordError.signature

end SigningKey

namespace VerifyingKey

/-- The record: the compressed point after its length. -/
def toRecord (key : VerifyingKey) : Checked Bytes := do
  return Record.byteString (← key.toSec1 .compressed)

/-- The text form of the record. -/
def toJson (key : VerifyingKey) : Checked String := do
  return JsonText.byteString (← key.toSec1 .compressed)

/-- The key whose byte string is at the front of the bytes. -/
def ofRecord (bytes : Bytes) : Outcome RecordError VerifyingKey := do
  let encoded ← Outcome.ofExcept (Record.read Record.takeByteString bytes)
  Outcome.mapRefusal RecordError.signature (ofSec1 encoded)

end VerifyingKey

end EllipticSignatures
