import EllipticSignatures.Key.Signing
import EllipticSignatures.Proofs.Bytes
import EllipticSignatures.Proofs.Curve.Generator

/-!
# The key pair

A signing key on an accepted curve with a scalar in range has a verifying key, the multiple of the
generator by its scalar. If the group order is prime, the verifying key is not the identity. The
bytes of such a key are the big-endian form of its scalar, as wide as the group order.
-/

namespace EllipticSignatures

variable {c : Curve}

/-- Being in range is being nonzero and below the group order. -/
theorem Curve.inScalarRange_iff {k : ℕ} : c.inScalarRange k ↔ 1 ≤ k ∧ k < c.n := by
  simp [Curve.inScalarRange, Nat.one_le_iff_ne_zero]

/-- A scalar in range is not zero modulo the group order. -/
theorem Curve.cast_ne_zero_of_inScalarRange {k : ℕ} (h : c.inScalarRange k) :
    (k : ZMod c.n) ≠ 0 := by
  rw [Curve.inScalarRange_iff] at h
  rw [Ne, ZMod.natCast_eq_zero_iff]
  exact Nat.not_dvd_of_pos_of_lt h.left h.right

/-- The opposite of a scalar in range is in range. -/
theorem Curve.inScalarRange_order_sub {k : ℕ} (h : c.inScalarRange k) :
    c.inScalarRange (c.n - k) := by
  rw [Curve.inScalarRange_iff] at h ⊢
  omega

/-- A scalar in range fits the bytes of a scalar. -/
theorem Curve.width_le_scalarBytes {k : ℕ} (h : c.inScalarRange k) :
    Bytes.width k ≤ c.scalarBytes :=
  Bytes.width_le_of_lt (Curve.inScalarRange_iff.mp h).right

namespace SigningKey

variable {key : SigningKey}

/-- The bytes of a key are the big-endian form of the residue of its scalar. -/
theorem toBytes_eq_mod (hn : 0 < key.curve.n) :
    key.toBytes =
      .ok (Bytes.bigEndian key.curve.scalarBytes (key.scalar.value % key.curve.n)) := by
  rw [toBytes, Scalar.toBytes, Scalar.toField, Curve.scalarElement, FieldElement.ofNat,
    Checked.mod_of_pos hn, ok_bind, pure_eq_ok, ok_bind, FieldElement.toBytes]
  exact if_pos (Bytes.width_le_of_lt (Nat.mod_lt _ hn))

/-- The bytes of a key are the big-endian form of its scalar. -/
theorem toBytes_of_inScalarRange (h : key.curve.inScalarRange key.scalar.value) :
    key.toBytes = .ok (Bytes.bigEndian key.curve.scalarBytes key.scalar.value) := by
  have hlt := (Curve.inScalarRange_iff.mp h).right
  rw [toBytes_eq_mod (Nat.zero_lt_of_lt hlt), Nat.mod_eq_of_lt hlt]

variable [Fact key.curve.p.Prime]

/-- The multiple of the generator by the secret scalar, as a public key. -/
noncomputable def publicKey (key : SigningKey) [Fact key.curve.p.Prime] (hc : key.curve.Checks) :
    VerifyingKey :=
  ⟨Affine.ofPoint (hc.multiples (key.scalar.value : ZMod key.curve.n)), key.curve⟩

/-- The verifying key exists and is the multiple of the generator by the secret scalar. -/
theorem verifyingKey_eq (hc : key.curve.Checks) : key.verifyingKey = .ok (key.publicKey hc) := by
  obtain ⟨G, R, hG, hR, hA⟩ := hc.exists_generator_mul key.scalar.value
  rw [verifyingKey, hG, ok_bind, hR, ok_bind, hA, ok_bind, pure_eq_ok, publicKey]

end SigningKey

end EllipticSignatures
