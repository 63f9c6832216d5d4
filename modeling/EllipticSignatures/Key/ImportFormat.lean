import EllipticSignatures.Key.Signing
import EllipticSignatures.Text.Base58

/-!
# Signing keys as text for import

The payload of the text is a version byte, the 32 bytes of the key and, for keys whose public
point is compressed, a flag.
-/

namespace EllipticSignatures.SigningKey

/-- The first byte of the payload. -/
def importVersion : UInt8 := 0x80

/-- The last byte of the payload of a key whose public point is compressed. -/
def compressedFlag : UInt8 := 0x01

/-- The number of bytes of a key in a payload. -/
def importBytes : Nat := 32

/-- The text of a key. -/
def toImportText [Digests] (key : SigningKey) (format : PointFormat) : Checked String := do
  let flag := match format with
    | .compressed => [compressedFlag]
    | .uncompressed => []
  return Base58Check.encode (importVersion :: (← key.toBytes) ++ flag)

/-- The form and the key bytes of a payload. -/
def splitPayload? : Bytes → Option (PointFormat × Bytes)
  | [] => none
  | version :: body =>
    if version ≠ importVersion then none
    else if body.length = importBytes then some (.uncompressed, body)
    else if body.length = importBytes + 1 ∧ body.getLast? = some compressedFlag then
      some (.compressed, body.take importBytes)
    else none

/-- The key and the form that a text writes, with white space around it ignored. -/
def ofImportText [Digests] (text : String) : Except SignatureError (SigningKey × PointFormat) :=
  match (Base58Check.decode? (Blank.trim text)).bind splitPayload? with
  | some (format, body) => do return (← ofBytes body, format)
  | none => .error .invalidKeyEncoding

end EllipticSignatures.SigningKey
