import EllipticSignatures.Key.Verifying
import EllipticSignatures.Text.Base58
import EllipticSignatures.Text.Blank

/-!
# Addresses

An address is the short digest of an encoded public point. Its text has a version byte in front
and a checksum.
-/

namespace EllipticSignatures

/-- The short digest of an encoded public point. -/
structure Address where
  /-- The digest. -/
  hash : Block 20
  deriving DecidableEq

namespace Address

/-- The first byte of the payload. -/
def version : UInt8 := 0x00

/-- The address of an encoded public point. -/
def ofSec1 [Digests] (encoded : Bytes) : Address := ⟨Digests.short encoded⟩

/-- The text of an address. -/
def toText [Digests] (address : Address) : String :=
  Base58Check.encode (version :: address.hash.bytes)

/-- The address with the given payload. -/
def ofPayload? : Bytes → Option Address
  | [] => none
  | first :: hash => if first = version then (Block.ofBytes? 20 hash).map Address.mk else none

/-- The address that a text writes, with white space around it ignored. -/
def ofText [Digests] (text : String) : Except SignatureError Address :=
  match (Base58Check.decode? (Blank.trim text)).bind ofPayload? with
  | some address => .ok address
  | none => .error .invalidAddress

end Address

/-- The address of a key in the given form. -/
def VerifyingKey.address [Digests] (key : VerifyingKey) (format : PointFormat) :
    Checked Address := do
  return Address.ofSec1 (← key.toSec1 format)

end EllipticSignatures
