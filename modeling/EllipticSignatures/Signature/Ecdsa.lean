import EllipticSignatures.Encoding.Der
import EllipticSignatures.Hash.Digests
import EllipticSignatures.Key.Signing

/-!
# ECDSA signatures

A signature of a number `z` under a secret `d` with a nonce `k` is the pair of `r`, the abscissa
of `k G` modulo the group order, and `s = (z + r d) / k`. It is valid for the public point `Q` if
`r` is the abscissa of `(z / s) G + (r / s) Q`.

Of the two numbers `s` and `n - s` that verify alike, the lower one is the normal form. The parity
of the ordinate of the nonce point comes along with a new signature, since it identifies the
signer.
-/

namespace EllipticSignatures

/-- A pair of numbers offered as a signature. -/
structure EcdsaSignature where
  /-- The abscissa of the nonce point modulo the group order. -/
  r : Nat
  /-- The response. -/
  s : Nat
  deriving DecidableEq, Repr

/-- A new signature and the parity of its nonce point. -/
structure RecoverableSignature where
  /-- The signature. -/
  signature : EcdsaSignature
  /-- The ordinate of the nonce point is odd. -/
  oddNonce : Bool
  deriving DecidableEq, Repr

namespace EcdsaSignature

/-- The response is at most half the group order. -/
def isLowS (sig : EcdsaSignature) (c : Curve) : Bool := decide (sig.s ≤ c.n >>> 1)

/-- The signature with the lower one of `s` and `n - s`; a response out of range stays. -/
def normalize (sig : EcdsaSignature) (c : Curve) : EcdsaSignature :=
  if sig.isLowS c ∨ c.n ≤ sig.s then sig else ⟨sig.r, c.n - sig.s⟩

/-- The encoding as a sequence of two integers. -/
def toDer (sig : EcdsaSignature) : Except SignatureError Bytes :=
  match Der.encodePair? sig.r sig.s with
  | some bytes => .ok bytes
  | none => .error .invalidSignatureEncoding

/-- The signature that a sequence of two integers encodes. -/
def ofDer (bytes : Bytes) : Except SignatureError EcdsaSignature :=
  match Der.decodePair? bytes with
  | some (r, s) => .ok ⟨r, s⟩
  | none => .error .invalidSignatureEncoding

end EcdsaSignature

namespace SigningKey

/-- The signature of the residue `z` with a given nonce; there is none if the nonce point is the
identity or one of the two numbers is zero. -/
def signWithNonce (key : SigningKey) (z : FieldElement) (k : Scalar) :
    Outcome SignatureError (Option RecoverableSignature) := do
  let c := key.curve
  let G : Projective ← PointGroup.generator c
  let R ← PointGroup.scalarMul G k.value c
  match ← R.toAffine with
  | .infinity => return none
  | .point x y =>
    let r ← x.reduceInto c.n
    if r.isZero then return none
    else
      let d ← key.scalar.toField c
      let inverse ← Outcome.mapRefusal SignatureError.curve (← k.toField c).invert
      let s ← inverse.mul (← z.add (← r.mul d))
      if s.isZero then return none
      else return some ⟨⟨r.value, s.value⟩, y.isOdd⟩

/-- The signature of the number `z` with the first random nonce that gives one. -/
def signPrehash (key : SigningKey) (z : Nat) : Draw SignatureError RecoverableSignature := do
  let residue : FieldElement ← (key.curve.scalarElement z : Outcome SignatureError FieldElement)
  Draw.retry do
    let k ← Scalar.random key.curve
    (key.signWithNonce residue k : Outcome SignatureError (Option RecoverableSignature))

/-- The number of bytes of a digest. -/
def digestBytes : Nat := 32

/-- The nonce derived from the key and the residue; the group order must have 256 bits. -/
def deterministicNonce [Digests] (key : SigningKey) (z : FieldElement) :
    Outcome SignatureError Scalar := do
  let c := key.curve
  if bitLength c.n ≠ 8 * digestBytes then
    Outcome.refuse (.curve (.invalidParameters .nonceOrder))
  else
    let k ← Digests.nonce key.scalar.value c.n z.value
    Outcome.ofExcept ((Scalar.ofNat k c).mapError SignatureError.ofKeyError)

/-- The normal form of the signature of a digest with the derived nonce. -/
def signDigest [Digests] (key : SigningKey) (digest : Bytes) :
    Outcome SignatureError RecoverableSignature := do
  let c := key.curve
  if digest.length ≠ digestBytes then Outcome.refuse .invalidDigestLength
  else
    let z ← c.scalarElement digest.toNat
    let k ← key.deterministicNonce z
    match ← key.signWithNonce z k with
    | none => Outcome.refuse .degenerateNonce
    | some signed =>
      -- The other response belongs to the opposite nonce point, of the other parity.
      if signed.signature.isLowS c then return signed
      else return ⟨signed.signature.normalize c, !signed.oddNonce⟩

/-- The signature of a message. -/
def signEcdsa [Digests] (key : SigningKey) (message : Bytes) :
    Outcome SignatureError EcdsaSignature := do
  return (← key.signDigest (Digests.single message).bytes).signature

end SigningKey

namespace VerifyingKey

/-- The signature is valid for the number `z`. -/
def verifyPrehash (key : VerifyingKey) (z : Nat) (sig : EcdsaSignature) : Checked Bool := do
  let c := key.curve
  if !c.inScalarRange sig.r || !c.inScalarRange sig.s then return false
  else
    match (← c.scalarElement sig.s).invert with
    | .error (.fault fault) => throw fault
    | .error (.refused _) => return false
    | .ok inverse =>
      let u₁ ← (← c.scalarElement z).mul inverse
      let u₂ ← (← c.scalarElement sig.r).mul inverse
      let Q ← Projective.ofAffine key.point
      let R ← Projective.jointMulGenerator u₁.value u₂.value Q c
      match ← R.toAffine with
      | .infinity => return false
      | .point x _ => return (← x.reduceInto c.n).value = sig.r

/-- The signature is valid for the message. -/
def verifyEcdsa [Digests] (key : VerifyingKey) (message : Bytes) (sig : EcdsaSignature) :
    Checked Bool :=
  key.verifyPrehash (Digests.single message).toNat sig

end VerifyingKey

end EllipticSignatures
