import EllipticSignatures.Curve.Parameters
import EllipticSignatures.Key.Verifying
import EllipticSignatures.Random.Sampling
import EllipticSignatures.Text.Quoted

/-!
# Signing keys

A signing key is a scalar together with its curve. Keys read from bytes or text, and random keys,
lie on `Curve.secp256k1`.
-/

namespace EllipticSignatures

/-- A secret scalar and its curve. -/
structure SigningKey where
  /-- The secret scalar. -/
  scalar : Scalar
  /-- The curve. -/
  curve : Curve
  deriving DecidableEq, Repr

namespace SigningKey

/-- The key with the given scalar, which must be in the range of the curve. -/
def ofScalar (s : Scalar) (c : Curve) : Except SignatureError SigningKey := do
  return ⟨← (Scalar.ofNat s.value c).mapError SignatureError.ofKeyError, c⟩

/-- The key written by big-endian bytes. -/
def ofBytes (bytes : Bytes) : Except SignatureError SigningKey := do
  let s ← (Scalar.ofBytes bytes Curve.secp256k1).mapError SignatureError.ofKeyError
  return ⟨s, Curve.secp256k1⟩

/-- The key written in hexadecimal. -/
def ofHexadecimal (text : String) : Except SignatureError SigningKey := do
  let s ← (Scalar.ofHexadecimal text Curve.secp256k1).mapError SignatureError.ofKeyError
  return ⟨s, Curve.secp256k1⟩

/-- A uniform key. -/
def random {ε : Type} : Draw ε SigningKey := do
  return ⟨← Scalar.random Curve.secp256k1, Curve.secp256k1⟩

/-- The scalar as big-endian bytes. -/
def toBytes (key : SigningKey) : Checked Bytes := key.scalar.toBytes key.curve

/-- The public key: the generator times the scalar. -/
def verifyingKey (key : SigningKey) : Checked VerifyingKey := do
  let G : Projective ← PointGroup.generator key.curve
  let Q ← PointGroup.scalarMul G key.scalar.value key.curve
  return ⟨← Q.toAffine, key.curve⟩

/-- The point shared with the owner of a public key on the same curve. -/
def diffieHellman (key : SigningKey) (peer : VerifyingKey) : Outcome SignatureError Affine := do
  if key.curve ≠ peer.curve then Outcome.refuse .invalidPoint
  else
    let Q ← Projective.ofAffine peer.point
    let product ← PointGroup.scalarMul Q key.scalar.value key.curve
    let shared ← product.toAffine
    if shared.isInfinity then Outcome.refuse .invalidPoint else return shared

/-- The name of the type and the curve; the scalar stays hidden. -/
def describe (key : SigningKey) : String :=
  "SigningKey \x7b curve: " ++ Quoted.encode key.curve.name ++ ", .. \x7d"

end SigningKey

end EllipticSignatures
