import EllipticSignatures.Encoding.Signature
import EllipticSignatures.Proofs.Encoding.Record
import EllipticSignatures.Proofs.Key.ImportFormat
import EllipticSignatures.Proofs.Key.Verifying
import EllipticSignatures.Proofs.Point.CanonicalEncoding

/-!
# Stored keys come back on the default curve

The record of a key does not name its curve. It holds the bytes of the scalar, as wide as the group
order of that curve, or the compressed point, and it is read as a key on `Curve.secp256k1`. What is
kept of a key from another curve is the scalar, or the abscissa and the parity of the ordinate, and
only if these belong to a key on the default curve as well (`SigningKey.ofRecord_eq_ok_iff`,
`VerifyingKey.ofRecord_eq_ok_iff`). A key is therefore read back exactly if it was on the default
curve (`ofRecord_key_eq_iff`).

A compressed point determines its point on the default curve, because no point of that curve has
ordinate zero: minus seven is not a cube modulo `Curve.secp256k1.p`.
-/

namespace EllipticSignatures

open FieldElement Record

/-! ## Compressed points of the default curve -/

namespace Affine

/-- A point of ordinate zero would have a cube root of minus seven as its abscissa. -/
theorem noZeroOrdinate_secp256k1 : NoZeroOrdinate Curve.secp256k1 := by
  have hprime := Fact.mk Curve.prime_p_secp256k1
  intro x h
  obtain ⟨x, rfl⟩ := h.inField.left.exists_ofZMod
  rw [zero_eq_ofZMod, onCurve_point_iff Curve.accepted_secp256k1.checks,
    Curve.equation_iff_rhs] at h
  have ha : Curve.secp256k1.weierstrass.a₄ = 0 := Nat.cast_zero
  have hb : Curve.secp256k1.weierstrass.a₆ = 7 := Nat.cast_ofNat
  rw [ha, hb] at h
  apply Curve.pow_three_ne_neg_seven x
  linear_combination -h

variable {c : Curve} [Fact c.p.Prime]

/-- Without points of ordinate zero, a compressed encoding is read exactly as the point of the curve
that it is the encoding of. -/
theorem ofSec1_parityTag_eq_ok_iff (hc : c.Checks) (hnone : NoZeroOrdinate c) {odd : Bool}
    {body : Bytes} {Q : Affine} :
    ofSec1 (parityTag odd :: body) c = .ok Q ↔
      Q.OnCurve c ∧ Q.toCompressed c = .ok (parityTag odd :: body) := by
  constructor
  · intro h
    exact ⟨(onCurve_of_ofSec1 hc h).right,
      encodedBy_parityTag.mp ((canonicalEncodings_iff hc).mpr hnone _ _ h)⟩
  · rintro ⟨hon, h⟩
    have hfinite : Q ≠ .infinity := by
      rintro rfl
      cases h
    obtain ⟨x, y, rfl, hequation⟩ := hon.exists_point hc hfinite
    rw [toCompressed_point, Except.ok.injEq] at h
    rw [← h]
    exact ofSec1_compressed hc hequation fun _ => rfl

end Affine

/-! ## Records of keys -/

namespace SigningKey

variable {key read : SigningKey} {bytes rest : Bytes}

theorem ofRecord_byteString_append (h : bytes.length < 256 ^ 8) :
    ofRecord (byteString bytes ++ rest) = (ofBytes bytes).mapError RecordError.signature := by
  rw [ofRecord, (reads_byteString h).read_append, ok_bind]

/-- Every key that is read is on the default curve. -/
theorem curve_of_ofRecord (h : ofRecord bytes = .ok read) : read.curve = Curve.secp256k1 := by
  obtain ⟨body, -, h⟩ := bind_eq_ok.mp h
  obtain ⟨-, -, rfl⟩ := ofBytes_eq_ok_iff_toNat.mp (mapError_eq_ok.mp h)
  rfl

theorem toRecord_eq (h : key.curve.inScalarRange key.scalar.value) :
    key.toRecord =
      .ok (byteString (Bytes.bigEndian key.curve.scalarBytes key.scalar.value)) := by
  rw [toRecord, toBytes_of_inScalarRange h, ok_bind, pure_eq_ok]

/-- The scalar of a stored key is read on the default curve if it is in range there and was stored
in no more bytes than that curve's scalars have. -/
theorem ofRecord_eq_ok_iff (h : key.curve.inScalarRange key.scalar.value)
    (hcounted : key.curve.scalarBytes < 256 ^ 8) :
    ofRecord (byteString (Bytes.bigEndian key.curve.scalarBytes key.scalar.value) ++ rest) =
        .ok read ↔
      key.curve.scalarBytes ≤ importBytes ∧ Curve.secp256k1.inScalarRange key.scalar.value ∧
        read = ⟨key.scalar, Curve.secp256k1⟩ := by
  have hlength := Bytes.length_bigEndian key.curve.scalarBytes key.scalar.value
  rw [ofRecord_byteString_append (hlength.trans_lt hcounted), mapError_eq_ok,
    ofBytes_eq_ok_iff_toNat, hlength,
    Bytes.toNat_bigEndian_of_width_le (Curve.width_le_scalarBytes h)]

/-- A key on the default curve is read back. -/
theorem ofRecord_of_curve_eq (hcurve : key.curve = Curve.secp256k1)
    (h : key.curve.inScalarRange key.scalar.value) (rest : Bytes) :
    ofRecord (byteString (Bytes.bigEndian key.curve.scalarBytes key.scalar.value) ++ rest) =
      .ok key := by
  obtain ⟨s, c⟩ := key
  subst hcurve
  refine (ofRecord_eq_ok_iff h ?_).mpr ⟨scalarBytes_secp256k1.le, h, rfl⟩
  rw [scalarBytes_secp256k1]
  decide

end SigningKey

namespace VerifyingKey

variable {key read : VerifyingKey} {bytes encoded rest : Bytes}

/-- A key has an encoding iff its point has. -/
theorem toSec1_eq_ok_iff {format : PointFormat} :
    key.toSec1 format = .ok bytes ↔ key.point.toSec1 format key.curve = .ok bytes := by
  rw [toSec1]
  rcases key.point.toSec1 format key.curve with (cause | fault) | found <;> simp

/-- The compressed encoding of a key is the tag of a parity and the bytes of one coordinate. -/
theorem exists_parityTag_of_toSec1 (h : key.toSec1 .compressed = .ok encoded) :
    ∃ odd body, encoded = Affine.parityTag odd :: body ∧ body.length = key.curve.fieldBytes := by
  rw [toSec1_eq_ok_iff, Affine.toSec1] at h
  cases hpoint : key.point with
  | infinity =>
    rw [hpoint] at h
    cases h
  | point x y =>
    rw [hpoint, Affine.toCompressed] at h
    obtain ⟨body, hbody, h⟩ := bind_eq_ok.mp h
    exact ⟨y.isOdd, body, (Except.ok.inj h).symm,
      length_of_toBytes (Outcome.ofChecked_eq_ok.mp hbody)⟩

theorem length_of_toSec1 (h : key.toSec1 .compressed = .ok encoded) :
    encoded.length = 1 + key.curve.fieldBytes := by
  obtain ⟨odd, body, rfl, hlength⟩ := exists_parityTag_of_toSec1 h
  rw [List.length_cons, hlength, add_comm]

/-- A compressed encoding is read exactly as the key on the default curve that it is the encoding
of. -/
theorem ofSec1_eq_ok_iff (h : key.toSec1 .compressed = .ok encoded) :
    ofSec1 encoded = .ok read ↔ read.curve = Curve.secp256k1 ∧
      read.point.OnCurve Curve.secp256k1 ∧ read.toSec1 .compressed = .ok encoded := by
  have hprime := Fact.mk Curve.prime_p_secp256k1
  obtain ⟨odd, body, rfl, -⟩ := exists_parityTag_of_toSec1 h
  have hpoint {Q : Affine} : Affine.ofSec1 (Affine.parityTag odd :: body) Curve.secp256k1 = .ok Q ↔
      Q.OnCurve Curve.secp256k1 ∧
        Q.toCompressed Curve.secp256k1 = .ok (Affine.parityTag odd :: body) :=
    Affine.ofSec1_parityTag_eq_ok_iff Curve.accepted_secp256k1.checks
      Affine.noZeroOrdinate_secp256k1
  rw [toSec1_eq_ok_iff, Affine.toSec1]
  constructor
  · intro hread
    obtain ⟨P, hP, hkey⟩ := exists_ofAffine_of_ofSec1On hread
    obtain ⟨-, -, rfl⟩ := ofAffine_eq_ok_iff.mp hkey
    exact ⟨rfl, hpoint.mp hP⟩
  · obtain ⟨P, c⟩ := read
    rintro ⟨rfl, hon, hencoded⟩
    have hP := hpoint.mpr ⟨hon, hencoded⟩
    have hfinite := (Affine.onCurve_of_ofSec1 Curve.accepted_secp256k1.checks hP).left
    rw [ofSec1, ofSec1On, hP, Outcome.mapRefusal_ok, ok_bind]
    exact ofAffine_eq_ok_iff.mpr ⟨hfinite, hon.passes, rfl⟩

theorem ofRecord_byteString_append (h : bytes.length < 256 ^ 8) :
    ofRecord (byteString bytes ++ rest) =
      Outcome.mapRefusal RecordError.signature (ofSec1 bytes) := by
  rw [ofRecord, (reads_byteString h).read_append, Outcome.ofExcept_ok, ok_bind]

/-- Every key that is read is on the default curve. -/
theorem curve_of_ofRecord (h : ofRecord bytes = .ok read) : read.curve = Curve.secp256k1 := by
  obtain ⟨body, -, h⟩ := bind_eq_ok.mp h
  obtain ⟨P, -, hkey⟩ := exists_ofAffine_of_ofSec1On (Outcome.mapRefusal_eq_ok.mp h)
  obtain ⟨-, -, rfl⟩ := ofAffine_eq_ok_iff.mp hkey
  rfl

theorem toRecord_eq (h : key.toSec1 .compressed = .ok encoded) :
    key.toRecord = .ok (byteString encoded) := by
  rw [toRecord, h, ok_bind, pure_eq_ok]

/-- A stored key is read exactly as the key on the default curve with the same compressed
encoding. -/
theorem ofRecord_eq_ok_iff (h : key.toSec1 .compressed = .ok encoded)
    (hcounted : encoded.length < 256 ^ 8) :
    ofRecord (byteString encoded ++ rest) = .ok read ↔ read.curve = Curve.secp256k1 ∧
      read.point.OnCurve Curve.secp256k1 ∧ read.toSec1 .compressed = .ok encoded := by
  rw [ofRecord_byteString_append hcounted, Outcome.mapRefusal_eq_ok, ofSec1_eq_ok_iff h]

/-- A finite key on the default curve is read back. -/
theorem ofRecord_of_curve_eq (hcurve : key.curve = Curve.secp256k1)
    (hon : key.point.OnCurve key.curve) (h : key.toSec1 .compressed = .ok encoded) (rest : Bytes) :
    ofRecord (byteString encoded ++ rest) = .ok key := by
  have hcounted : encoded.length < 256 ^ 8 := by
    rw [length_of_toSec1 h, hcurve]
    decide
  exact (ofRecord_eq_ok_iff h hcounted).mpr ⟨hcurve, hcurve ▸ hon, h⟩

end VerifyingKey

/-! ## Which keys come back -/

/-- A key comes back exactly if it is on the default curve. Every signing key in range and every
finite verifying key has a record, and whatever bytes follow it, what is read is a key on the
default curve, which is the stored key exactly if that was on the default curve as well. There it
is always read. If the length of the stored bytes is below 2⁶⁴, the signing key that is read has the
stored scalar, and the verifying key that is read has the stored compressed encoding; they are read
exactly if such keys exist on the default curve and a scalar is no wider than there. The identity
has no record. -/
theorem ofRecord_key_eq_iff {c : Curve} (hc : c.Accepted) (rest : Bytes) :
    (∀ key : SigningKey, key.curve = c → c.inScalarRange key.scalar.value →
      ∃ record, key.toRecord = .ok record ∧
        (c.scalarBytes < 256 ^ 8 → ∀ read, SigningKey.ofRecord (record ++ rest) = .ok read ↔
          c.scalarBytes ≤ SigningKey.importBytes ∧
            Curve.secp256k1.inScalarRange key.scalar.value ∧
            read = ⟨key.scalar, Curve.secp256k1⟩) ∧
        (∀ read, SigningKey.ofRecord (record ++ rest) = .ok read →
          read.curve = Curve.secp256k1 ∧ (read = key ↔ c = Curve.secp256k1)) ∧
        (c = Curve.secp256k1 → SigningKey.ofRecord (record ++ rest) = .ok key)) ∧
    (∀ key : VerifyingKey, key.curve = c → key.point.OnCurve c → key.point ≠ .infinity →
      ∃ record, key.toRecord = .ok record ∧
        (1 + c.fieldBytes < 256 ^ 8 → ∀ read, VerifyingKey.ofRecord (record ++ rest) = .ok read ↔
          read.curve = Curve.secp256k1 ∧ read.point.OnCurve Curve.secp256k1 ∧
            read.toSec1 .compressed = key.toSec1 .compressed) ∧
        (∀ read, VerifyingKey.ofRecord (record ++ rest) = .ok read →
          read.curve = Curve.secp256k1 ∧ (read = key ↔ c = Curve.secp256k1)) ∧
        (c = Curve.secp256k1 → VerifyingKey.ofRecord (record ++ rest) = .ok key)) ∧
    (VerifyingKey.mk .infinity c).toRecord = .error .identityKey := by
  refine ⟨?_, ?_, ?_⟩
  · rintro key rfl hrange
    have hback (hcurve : key.curve = Curve.secp256k1) :=
      SigningKey.ofRecord_of_curve_eq hcurve hrange rest
    refine ⟨_, SigningKey.toRecord_eq hrange,
      fun hcounted read => SigningKey.ofRecord_eq_ok_iff hrange hcounted, ?_, hback⟩
    intro read hread
    -- A record does not name its curve, so whatever is read is on the default one.
    have hcurve := SigningKey.curve_of_ofRecord hread
    exact ⟨hcurve, fun h => h ▸ hcurve, fun h => Except.ok.inj (hread.symm.trans (hback h))⟩
  · rintro key rfl hon hfinite
    have := hc.checks.neZero_p
    obtain ⟨encoded, hencoded⟩ := VerifyingKey.exists_toSec1 hon.inField hfinite .compressed
    have hback (hcurve : key.curve = Curve.secp256k1) :=
      VerifyingKey.ofRecord_of_curve_eq hcurve hon hencoded rest
    refine ⟨_, VerifyingKey.toRecord_eq hencoded, ?_, ?_, hback⟩
    · intro hcounted read
      rw [hencoded]
      exact VerifyingKey.ofRecord_eq_ok_iff hencoded
        ((VerifyingKey.length_of_toSec1 hencoded).trans_lt hcounted)
    · intro read hread
      have hcurve := VerifyingKey.curve_of_ofRecord hread
      exact ⟨hcurve, fun h => h ▸ hcurve, fun h => Except.ok.inj (hread.symm.trans (hback h))⟩
  · rw [VerifyingKey.toRecord, VerifyingKey.toSec1_infinity, error_bind]

/-- The secret five of the curve with 13 points is stored in one byte and read as the secret five of
the default curve. The generator of the default curve is read back. -/
theorem thirteen_secp256k1_ofRecord_key :
    (∃ record, (SigningKey.mk ⟨5⟩ Curve.thirteen).toRecord = .ok record ∧
      SigningKey.ofRecord (record ++ [0xff]) = .ok ⟨⟨5⟩, Curve.secp256k1⟩) ∧
    ∃ record, (VerifyingKey.mk Curve.secp256k1.generator Curve.secp256k1).toRecord = .ok record ∧
      VerifyingKey.ofRecord (record ++ [0xff]) =
        .ok ⟨Curve.secp256k1.generator, Curve.secp256k1⟩ := by
  constructor
  · obtain ⟨hsigning, -⟩ := ofRecord_key_eq_iff Curve.accepted_thirteen [0xff]
    obtain ⟨record, hrecord, hread, -⟩ := hsigning ⟨⟨5⟩, Curve.thirteen⟩ rfl (by decide)
    exact ⟨record, hrecord, (hread (by decide) _).mpr ⟨by decide, by decide, rfl⟩⟩
  · obtain ⟨-, hverifying, -⟩ := ofRecord_key_eq_iff Curve.accepted_secp256k1 [0xff]
    have hk := Curve.accepted_secp256k1.checks
    have hon : Curve.secp256k1.generator.OnCurve Curve.secp256k1 :=
      ⟨hk.inField_generator.reduced, hk.generator_onCurve⟩
    obtain ⟨record, hrecord, -, -, hback⟩ :=
      hverifying ⟨Curve.secp256k1.generator, Curve.secp256k1⟩ rfl hon Affine.noConfusion
    exact ⟨record, hrecord, hback rfl⟩

/-- On an accepted curve of prime modulus the secret one is stored and read as a key on another
curve. -/
theorem thirteen_ofRecord_key_ne :
    let key : SigningKey := ⟨⟨1⟩, Curve.thirteen⟩
    let read : SigningKey := ⟨⟨1⟩, Curve.secp256k1⟩
    Curve.thirteen.Accepted ∧ Curve.thirteen.p.Prime ∧
      Curve.thirteen.inScalarRange key.scalar.value ∧
      (∃ record, key.toRecord = .ok record ∧ SigningKey.ofRecord record = .ok read) ∧
      read ≠ key := by
  intro key read
  have hrange : Curve.thirteen.inScalarRange 1 := by decide
  have hread := (@SigningKey.ofRecord_eq_ok_iff key read [] hrange (by decide)).mpr
    ⟨by decide, by decide, rfl⟩
  rw [List.append_nil] at hread
  exact ⟨Curve.accepted_thirteen, Curve.prime_p_thirteen, hrange,
    ⟨_, SigningKey.toRecord_eq hrange, hread⟩, by decide⟩

end EllipticSignatures
