import EllipticSignatures.Curve.Parameters
import EllipticSignatures.Point.Sec1
import EllipticSignatures.Signature.Error

/-!
# Verifying keys

A verifying key is a finite point together with its curve. Reading one refuses the identity and
points off the curve.
-/

namespace EllipticSignatures

/-- A public point and its curve. -/
structure VerifyingKey where
  /-- The public point. -/
  point : Affine
  /-- The curve. -/
  curve : Curve
  deriving DecidableEq, Repr

namespace VerifyingKey

/-- The key with the given point, which must be a finite point of the curve. -/
def ofAffine (P : Affine) (c : Curve) : Outcome SignatureError VerifyingKey := do
  if P.isInfinity then Outcome.refuse .invalidPoint
  else if ← P.isOnCurve c then return ⟨P, c⟩
  else Outcome.refuse .invalidPoint

/-- The key on the given curve that the bytes encode in either form. -/
def ofSec1On (bytes : Bytes) (c : Curve) : Outcome SignatureError VerifyingKey := do
  ofAffine (← Outcome.mapRefusal SignatureError.ofKeyError (Affine.ofSec1 bytes c)) c

/-- The key on `Curve.secp256k1` that the bytes encode in either form. -/
def ofSec1 (bytes : Bytes) : Outcome SignatureError VerifyingKey :=
  ofSec1On bytes Curve.secp256k1

/-- The encoding of the point in the given form; the identity has none and is a fault. -/
def toSec1 (key : VerifyingKey) (format : PointFormat) : Checked Bytes :=
  match key.point.toSec1 format key.curve with
  | .ok bytes => .ok bytes
  | .error (.refused _) => .error .identityKey
  | .error (.fault fault) => .error fault

end VerifyingKey

end EllipticSignatures
