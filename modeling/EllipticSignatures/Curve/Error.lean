/-!
# Errors of curve arithmetic

The causes for which curve operations refuse their input, and the wording of each.
-/

namespace EllipticSignatures

/-- Why a byte string or text is not an encoding. -/
inductive EncodingError where
  /-- The integer is at least the modulus. -/
  | notBelowModulus
  /-- No bytes where a point is read. -/
  | emptyPoint
  /-- The length does not suit a compressed point. -/
  | compressedLength
  /-- The length does not suit an uncompressed point. -/
  | uncompressedLength
  /-- The first byte names no form of a point. -/
  | unknownTag
  /-- More bytes than the group order has. -/
  | scalarTooWide
  /-- The text is not hexadecimal. -/
  | notHexadecimal
  deriving DecidableEq, Repr

/-- Why numbers do not describe a curve, or a curve does not suit an operation. -/
inductive ParameterError where
  /-- The field modulus is even or at most three. -/
  | fieldModulus
  /-- The group order is at most one. -/
  | groupOrder
  /-- A coordinate of the generator is not below the field modulus. -/
  | generatorRange
  /-- The cubic has a repeated root. -/
  | singular
  /-- The generator does not satisfy the curve equation. -/
  | generatorOffCurve
  /-- The group order times the generator is not the identity. -/
  | wrongOrder
  /-- The group order does not have 256 bits. -/
  | nonceOrder
  deriving DecidableEq, Repr

/-- Why an operation on scalars, field elements, points or curves refuses its input. -/
inductive CurveError where
  /-- The scalar is zero or not below the group order. -/
  | invalidScalar
  /-- The coordinates do not belong to a finite point of the curve. -/
  | invalidPoint
  /-- Zero has no inverse. -/
  | inverseOfZero
  /-- The input is not an encoding. -/
  | invalidEncoding (cause : EncodingError)
  /-- The numbers do not describe a suitable curve. -/
  | invalidParameters (cause : ParameterError)
  deriving DecidableEq, Repr

/-- The wording of an encoding error. -/
def EncodingError.message : EncodingError → String
  | .notBelowModulus => "integer is not below the modulus"
  | .emptyPoint => "empty point encoding"
  | .compressedLength => "compressed point has wrong length"
  | .uncompressedLength => "uncompressed point has wrong length"
  | .unknownTag => "unknown point tag"
  | .scalarTooWide => "scalar is wider than the group order"
  | .notHexadecimal => "invalid hex"

/-- The wording of a parameter error. -/
def ParameterError.message : ParameterError → String
  | .fieldModulus => "p must be an odd prime above 3"
  | .groupOrder => "n must exceed 1"
  | .generatorRange => "generator coordinates exceed p"
  | .singular => "curve is singular"
  | .generatorOffCurve => "generator is not on the curve"
  | .wrongOrder => "n * G is not the identity"
  | .nonceOrder => "deterministic nonces need a 256-bit group order"

/-- The wording of a curve error. -/
def CurveError.message : CurveError → String
  | .invalidScalar => "scalar is not in the range [1, n - 1]"
  | .invalidPoint => "point is not a valid finite point on the curve"
  | .inverseOfZero => "modular inverse of zero"
  | .invalidEncoding cause => "invalid encoding: " ++ cause.message
  | .invalidParameters cause => "invalid curve parameters: " ++ cause.message

end EllipticSignatures
