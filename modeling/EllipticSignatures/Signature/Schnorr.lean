import EllipticSignatures.Hash.Digests
import EllipticSignatures.Key.Signing

/-!
# Schnorr signatures

The nonce is the digest of the secret and the message, negated unless the ordinate of the nonce
point is a quadratic residue. With the challenge `e`, the digest of the abscissa, the compressed
public point and the message, the response is `k + e d`. Verification computes `s G - e Q` and
asks for a residue as ordinate and the signed abscissa.
-/

namespace EllipticSignatures

/-- The abscissa of the nonce point and the response. -/
structure SchnorrSignature where
  /-- The abscissa of the nonce point. -/
  r : Block 32
  /-- The response. -/
  s : Block 32
  deriving DecidableEq

namespace SchnorrSignature

/-- The bytes of both numbers. -/
def toBytes (sig : SchnorrSignature) : Bytes := sig.r.bytes ++ sig.s.bytes

/-- The signature with the given bytes, if there are 64. -/
def ofBytes? (bytes : Bytes) : Option SchnorrSignature := do
  return ⟨← Block.ofBytes? 32 (bytes.take 32), ← Block.ofBytes? 32 (bytes.drop 32)⟩

/-- The signature with the given bytes. -/
def ofBytes (bytes : Bytes) : Except SignatureError SchnorrSignature :=
  match ofBytes? bytes with
  | some sig => .ok sig
  | none => .error .invalidSignatureEncoding

/-- The signature written in hexadecimal, with white space around it ignored. -/
def ofHexadecimal (text : String) : Except SignatureError SchnorrSignature :=
  match Hexadecimal.decode? (Blank.trim text) with
  | some bytes => ofBytes bytes
  | none => .error .invalidSignatureEncoding

/-- The signature in hexadecimal. -/
def toHexadecimal (sig : SchnorrSignature) : String := Hexadecimal.encode sig.toBytes

/-- The signature in hexadecimal inside the name of its type. -/
def describe (sig : SchnorrSignature) : String := "SchnorrSignature(" ++ sig.toHexadecimal ++ ")"

end SchnorrSignature

/-- The signature of a message. -/
def SigningKey.signSchnorr [Digests] (key : SigningKey) (message : Bytes) :
    Outcome SignatureError SchnorrSignature := do
  let c := key.curve
  let secret ← key.toBytes
  let k ← c.scalarElement (Digests.concat [secret, message]).toNat
  if k.isZero then Outcome.refuse .degenerateNonce
  else
    let G : Projective ← PointGroup.generator c
    let R ← PointGroup.scalarMul G k.value c
    match ← R.toAffine with
    | .infinity => Outcome.refuse .degenerateNonce
    | .point x y =>
      -- The opposite nonce point has the opposite ordinate.
      let k ← if (← y.legendre) = 1 then .ok k else k.neg
      let r ← x.toBytes c.fieldBytes
      let encodedKey ← (← key.verifyingKey).toSec1 .compressed
      let e ← c.scalarElement (Digests.concat [r, encodedKey, message]).toNat
      let s ← k.add (← e.mul (← key.scalar.toField c))
      Outcome.ofExcept (SchnorrSignature.ofBytes (r ++ (← s.toBytes c.fieldBytes)))

namespace VerifyingKey

/-- The signature is valid for the message. -/
def verifySchnorr [Digests] (key : VerifyingKey) (message : Bytes) (sig : SchnorrSignature) :
    Checked Bool := do
  let c := key.curve
  let r := sig.r.toNat
  let s := sig.s.toNat
  if c.p ≤ r then return false
  else if c.n ≤ s then return false
  else
    let encodedKey ← key.toSec1 .compressed
    let e ← c.scalarElement (Digests.concat [sig.r.bytes, encodedKey, message]).toNat
    let opposite ← e.neg
    let Q ← Projective.ofAffine key.point
    let R ← Projective.jointMulGenerator s opposite.value Q c
    match ← R.toAffine with
    | .infinity => return false
    | .point x y =>
      if (← y.legendre) ≠ 1 then return false
      else return x.value = r

/-- The bytes are a signature that is valid for the message. -/
def verifySchnorrBytes [Digests] (key : VerifyingKey) (message bytes : Bytes) : Checked Bool :=
  match SchnorrSignature.ofBytes bytes with
  | .ok sig => key.verifySchnorr message sig
  | .error _ => .ok false

end VerifyingKey

end EllipticSignatures
