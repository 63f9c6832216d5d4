import EllipticSignatures.Key.Address
import EllipticSignatures.Signature.Ecdsa
import EllipticSignatures.Text.Base64

/-!
# Messages signed for an address

A signed message is checked against an address instead of a key. The signature has a header byte
that tells the form in which the public point is hashed; verification recovers the two public
points that an ECDSA signature can belong to and looks for one with that address.

The bytes that are hashed hold the length of the message. A length below 253 is one byte. Greater
lengths follow a marker byte that tells whether two, four or eight little-endian bytes hold them.
-/

namespace EllipticSignatures

namespace CompactSize

/-- The bytes of a length below 2⁶⁴. -/
def encode (length : Nat) : Bytes :=
  if length ≤ 0xfc then [UInt8.ofNat length]
  else if length ≤ 0xffff then 0xfd :: Bytes.littleEndian 2 length
  else if length ≤ 0xffffffff then 0xfe :: Bytes.littleEndian 4 length
  else 0xff :: Bytes.littleEndian 8 length

end CompactSize

/-- An ECDSA signature with a header. -/
structure MessageSignature where
  /-- The form in which the public point is hashed. -/
  format : PointFormat
  /-- The number of the nonce point among those with the same `r`. -/
  recovery : Fin 4
  /-- The abscissa of the nonce point modulo the group order. -/
  r : Block 32
  /-- The response. -/
  s : Block 32
  deriving DecidableEq

namespace MessageSignature

/-- The least header. -/
def headerBase : Nat := 27

/-- What a compressed form adds to the header. -/
def compressedOffset : Nat := 4

/-- The number of bytes of an encoded signature. -/
def encodedBytes : Nat := 65

/-- The public point is hashed in the compressed form. -/
def isCompressed (sig : MessageSignature) : Bool := sig.format == .compressed

/-- The header byte. -/
def header (sig : MessageSignature) : UInt8 :=
  let offset := if sig.isCompressed then compressedOffset else 0
  UInt8.ofNat (headerBase + offset + sig.recovery.val)

/-- The form and the recovery number that a header tells. -/
def ofHeader? (header : UInt8) : Option (PointFormat × Fin 4) :=
  let h := header.toNat
  if h < headerBase ∨ headerBase + 8 ≤ h then none
  else
    let format : PointFormat :=
      if headerBase + compressedOffset ≤ h then .compressed else .uncompressed
    some (format, Fin.ofNat 4 (h - headerBase))

/-- The header, then both numbers. -/
def toBytes (sig : MessageSignature) : Bytes := sig.header :: (sig.r.bytes ++ sig.s.bytes)

/-- The signature with the given bytes, if they are a header and two numbers. -/
def ofBytes? : Bytes → Option MessageSignature
  | [] => none
  | first :: body => do
    let (format, recovery) ← ofHeader? first
    let r ← Block.ofBytes? 32 (body.take 32)
    let s ← Block.ofBytes? 32 (body.drop 32)
    return ⟨format, recovery, r, s⟩

/-- The signature with the given bytes. -/
def ofBytes (bytes : Bytes) : Except SignatureError MessageSignature :=
  match ofBytes? bytes with
  | some sig => .ok sig
  | none => .error .invalidSignatureEncoding

/-- The text of a signature. -/
def toBase64 (sig : MessageSignature) : String := String.ofList (Base64.encodeChars sig.toBytes)

/-- The signature that a text writes, with white space around it ignored. -/
def ofBase64 (text : String) : Except SignatureError MessageSignature :=
  match Base64.decodeChars? (Blank.trim text).toList with
  | some bytes => ofBytes bytes
  | none => .error .invalidSignatureEncoding

/-- The pair of numbers. -/
def toEcdsa (sig : MessageSignature) : EcdsaSignature := ⟨sig.r.toNat, sig.s.toNat⟩

/-- The 32 bytes of a number, unless it needs more. -/
def blockOf (value : Nat) : Except SignatureError (Block 32) :=
  if 32 < Bytes.width value then .error .invalidSignatureEncoding else .ok (Block.ofNat 32 value)

end MessageSignature

namespace SignedMessage

/-- The bytes that stand in front of every signed message. -/
def magic : Bytes :=
  [0x18, 0x42, 0x69, 0x74, 0x63, 0x6f, 0x69, 0x6e, 0x20, 0x53, 0x69, 0x67, 0x6e, 0x65, 0x64, 0x20,
    0x4d, 0x65, 0x73, 0x73, 0x61, 0x67, 0x65, 0x3a, 0x0a]

/-- The bytes that are hashed for a message: the magic bytes, the length and the message. -/
def preimage (message : Bytes) : Bytes :=
  magic ++ (CompactSize.encode message.length ++ message)

/-- The digest of a message. -/
def digest [Digests] (message : Bytes) : Block 32 := Digests.double (preimage message)

end SignedMessage

/-- The signature of a message with a random nonce. -/
def SigningKey.signMessage [Digests] (key : SigningKey) (message : Bytes) (format : PointFormat) :
    Draw SignatureError MessageSignature := do
  let signed ← key.signPrehash (SignedMessage.digest message).toNat
  let recovery : Fin 4 := if signed.oddNonce then 1 else 0
  let build : Except SignatureError MessageSignature := do
    let r ← MessageSignature.blockOf signed.signature.r
    return ⟨format, recovery, r, ← MessageSignature.blockOf signed.signature.s⟩
  (Outcome.ofExcept build : Outcome SignatureError MessageSignature)

namespace MessageSignature

/-- The public point that belongs to the nonce point `(x, y)`, for the given multipliers. -/
def recoverFrom (c : Curve) (u₁ u₂ : Nat) (x y : FieldElement) : Checked (Option Affine) := do
  let R ← Projective.ofAffine (.point x y)
  let Q ← (← Projective.jointMulGenerator u₁ u₂ R c).toAffine
  return if Q.isInfinity then none else some Q

/-- The public points that a signature of the number `z` can belong to. The abscissa of the nonce
point is taken to be `r` itself. -/
def recoverCandidates (c : Curve) (sig : EcdsaSignature) (z : Nat) : Checked (List Affine) := do
  if !c.inScalarRange sig.r || !c.inScalarRange sig.s || decide (c.p ≤ sig.r) then return []
  else
    let x ← c.baseElement sig.r
    match ← (← c.rhs x).sqrt with
    | none => return []
    | some y =>
      match (← c.scalarElement sig.r).invert with
      | .error (.fault fault) => throw fault
      | .error (.refused _) => return []
      | .ok inverse =>
        let u₁ ← (← (← c.scalarElement z).neg).mul inverse
        let u₂ ← (← c.scalarElement sig.s).mul inverse
        let opposite ← y.neg
        let first ← recoverFrom c u₁.value u₂.value x y
        let second ← recoverFrom c u₁.value u₂.value x opposite
        return first.toList ++ second.toList

/-- Some point among the candidates has the address in the given form. -/
def anyHasAddress [Digests] (c : Curve) (format : PointFormat) (address : Address) :
    List Affine → Checked Bool
  | [] => .ok false
  | Q :: rest =>
    match Q.toSec1 format c with
    | .ok encoded =>
      if Address.ofSec1 encoded = address then .ok true else anyHasAddress c format address rest
    | .error (.refused _) => anyHasAddress c format address rest
    | .error (.fault fault) => .error fault

end MessageSignature

namespace SignedMessage

/-- The signature text belongs to the message and the address text on the given curve. -/
def verifyOn [Digests] (c : Curve) (address : String) (message : Bytes) (signature : String) :
    Checked Bool := do
  match Address.ofText address, MessageSignature.ofBase64 signature with
  | .ok address, .ok sig =>
    let candidates ← MessageSignature.recoverCandidates c sig.toEcdsa (digest message).toNat
    MessageSignature.anyHasAddress c sig.format address candidates
  | _, _ => return false

/-- The signature text belongs to the message and the address text on `Curve.secp256k1`. -/
def verify [Digests] (address : String) (message : Bytes) (signature : String) : Checked Bool :=
  verifyOn Curve.secp256k1 address message signature

end SignedMessage

/-- The signature belongs to the message and the key. -/
def VerifyingKey.verifyMessage [Digests] (key : VerifyingKey) (message : Bytes)
    (sig : MessageSignature) : Checked Bool :=
  key.verifyPrehash (SignedMessage.digest message).toNat sig.toEcdsa

end EllipticSignatures
