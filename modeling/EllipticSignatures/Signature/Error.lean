import EllipticSignatures.Curve.Error

/-!
# Errors of keys, addresses and signatures

The causes for which operations on keys, addresses and signatures refuse their input, and the
wording of each.
-/

namespace EllipticSignatures

/-- Why an operation on keys, addresses or signatures refuses its input. -/
inductive SignatureError where
  /-- The scalar is zero or not below the group order. -/
  | invalidScalar
  /-- The point is the identity or not a point of the curve. -/
  | invalidPoint
  /-- The input does not encode a signature. -/
  | invalidSignatureEncoding
  /-- The input does not encode a key. -/
  | invalidKeyEncoding
  /-- The text is not an address. -/
  | invalidAddress
  /-- The derived nonce gives no signature. -/
  | degenerateNonce
  /-- The digest does not have 32 bytes. -/
  | invalidDigestLength
  /-- A curve operation refused its input. -/
  | curve (cause : CurveError)
  deriving DecidableEq, Repr

namespace SignatureError

/-- The wording of an error; errors of curve operations keep theirs. -/
def message : SignatureError → String
  | .invalidScalar => "scalar is outside [1, n - 1]"
  | .invalidPoint => "point is not a valid non-identity curve point"
  | .invalidSignatureEncoding => "malformed signature encoding"
  | .invalidKeyEncoding => "malformed key encoding"
  | .invalidAddress => "malformed address"
  | .degenerateNonce => "derived nonce is degenerate"
  | .invalidDigestLength => "digest must be 32 bytes"
  | .curve cause => cause.message

/-- The error of a key whose scalar or point a curve operation refused. -/
def ofKeyError : CurveError → SignatureError
  | .invalidScalar => .invalidScalar
  | .invalidPoint => .invalidPoint
  | .invalidEncoding _ => .invalidKeyEncoding
  | cause => .curve cause

end SignatureError

end EllipticSignatures
