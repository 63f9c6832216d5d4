import EllipticSignatures.Proofs.Curve.Secp256k1
import EllipticSignatures.Proofs.Signature.NormalForm

/-!
# Low responses and the parity of the nonce point

A signature `(r, s)` of `z` under the public point `Q` tells its nonce point `s⁻¹ (z G + r Q)`.
Replacing `s` by `n - s` replaces the nonce point by its opposite, of the same abscissa and of the
other parity, so the new signature is valid too and the parity that comes along is flipped
(`SigningKey.TellsNonce.opposite`). Neither step depends on how the nonce was chosen: the results
hold for every nonce in range, and for the derived one in particular (`signDigest_lowSigned`).
-/

namespace EllipticSignatures

open FieldElement

/-- The point `s⁻¹ (z G + r Q)` for a signature `(r, s)` of `z` under the public point `Q`. -/
def VerifyingKey.noncePoint (key : VerifyingKey) (z : ℕ) (sig : EcdsaSignature) :
    Checked Affine := do
  let c := key.curve
  let zG ← PointGroup.scalarMul c.generator z c
  let rQ ← PointGroup.scalarMul key.point sig.r c
  PointGroup.scalarMul (← zG.add rQ c) (sig.s : ZMod c.n)⁻¹.val c

/-- The signature is valid for `z`, its response is a low one, and the parity that comes along is
the parity of its nonce point. -/
structure VerifyingKey.LowSigned (key : VerifyingKey) (z : ℕ) (signed : RecoverableSignature) :
    Prop where
  /-- The first number is in range. -/
  r_range : 1 ≤ signed.signature.r ∧ signed.signature.r < key.curve.n
  /-- The response is in the lower half of the range. -/
  s_low : 1 ≤ signed.signature.s ∧ signed.signature.s ≤ (key.curve.n - 1) / 2
  /-- Verification answers yes. -/
  accepted : key.verifyPrehash z signed.signature = .ok true
  /-- The nonce point is finite and its ordinate has the parity. -/
  recovers : ∃ x y, key.noncePoint z signed.signature = .ok (.point x y) ∧
    y.isOdd = signed.oddNonce

/-- The signature with the lower one of both responses, and the parity that belongs to it. -/
def RecoverableSignature.lowForm (signed : RecoverableSignature) (c : Curve) :
    RecoverableSignature :=
  if signed.signature.isLowS c then signed
  else ⟨signed.signature.normalize c, !signed.oddNonce⟩

namespace SigningKey

variable {key : SigningKey}

/-! ## Signing a digest -/

/-- A derived nonce is in range, and the group order has 256 bits. -/
theorem inScalarRange_of_deterministicNonce [Digests] {z : FieldElement} {k : Scalar}
    (h : key.deterministicNonce z = .ok k) :
    bitLength key.curve.n = 256 ∧ key.curve.inScalarRange k.value := by
  unfold deterministicNonce at h
  by_cases hbits : bitLength key.curve.n ≠ 8 * digestBytes
  · simp [hbits] at h
  rw [if_neg hbits] at h
  obtain ⟨value, -, h⟩ := bind_eq_ok.mp h
  rw [Outcome.ofExcept_eq_ok, Scalar.ofNat] at h
  -- Whatever has been derived, only a number in range becomes a scalar.
  by_cases hrange : key.curve.inScalarRange value
  · rw [if_pos hrange, mapError_ok, Except.ok.injEq] at h
    subst h
    exact ⟨not_not.mp hbits, hrange⟩
  · simp [hrange, Except.mapError] at h

/-- A signature of a digest is the low form of the signature with some nonce in range, and the
group order is not two. -/
theorem exists_nonce_of_signDigest [Digests] [NeZero key.curve.n] {digest : Bytes}
    {signed : RecoverableSignature} (h : key.signDigest digest = .ok signed) :
    key.curve.n ≠ 2 ∧ ∃ (k : Scalar) (made : RecoverableSignature),
      key.curve.inScalarRange k.value ∧
      key.signWithNonce (ofZMod (digest.toNat : ZMod key.curve.n)) k = .ok (some made) ∧
      signed = made.lowForm key.curve := by
  unfold signDigest at h
  by_cases hlength : digest.length ≠ digestBytes
  · simp [hlength] at h
  simp only [hlength, if_false, Curve.scalarElement, ofNat_eq_ofZMod, Outcome.liftM_checked,
    Outcome.ofChecked_ok, ok_bind] at h
  obtain ⟨k, hk, h⟩ := bind_eq_ok.mp h
  obtain ⟨hbits, hrange⟩ := inScalarRange_of_deterministicNonce hk
  -- The derivation has accepted the width of the group order, which that of two does not have.
  have hn : key.curve.n ≠ 2 := by
    intro htwo
    rw [htwo] at hbits
    exact absurd hbits (by decide)
  obtain ⟨found, hfound, h⟩ := bind_eq_ok.mp h
  cases found with
  | none => simp at h
  | some made =>
    refine ⟨hn, k, made, hrange, hfound, ?_⟩
    unfold RecoverableSignature.lowForm
    by_cases hlow : made.signature.isLowS key.curve
    · simpa [hlow, eq_comm] using h
    · simpa [hlow, eq_comm] using h

/-! ## The nonce point that a signature tells -/

section TellsNonce

variable [Fact key.curve.n.Prime]

/-- The opposite nonce gives the opposite response. -/
theorem response_neg (z r k : ZMod key.curve.n) :
    key.response z r (-k) = -key.response z r k := by
  rw [response, response, inv_neg, neg_mul]

variable [Fact key.curve.p.Prime]

/-- The other response tells the opposite nonce point, whose ordinate has the other parity. -/
theorem TellsNonce.opposite {hc : key.curve.Checks} (hn : key.curve.n ≠ 2) {z : ZMod key.curve.n}
    {signed : RecoverableSignature} (h : key.TellsNonce hc z signed) :
    key.TellsNonce hc z
      ⟨⟨signed.signature.r, key.curve.n - signed.signature.s⟩, !signed.oddNonce⟩ := by
  obtain ⟨⟨r, s⟩, oddNonce⟩ := signed
  obtain ⟨hr, hs, x, y, hxy, hpoint, hx, hodd⟩ := h
  dsimp only at hr hs hpoint hx hodd ⊢
  obtain ⟨-, hsn⟩ := Curve.inScalarRange_iff.mp hs
  obtain ⟨hxy', hneg⟩ := Curve.exists_neg_some hxy
  refine ⟨hr, Curve.inScalarRange_order_sub hs, x, -y, hxy', ?_, hx, ?_⟩
  · rw [natCast_modulus_sub hsn.le, response_neg, map_neg, hpoint, hneg]
  · -- The group order is an odd prime, so the ordinate is not its own opposite.
    have hy : y ≠ 0 := hc.ordinate_ne_zero Fact.out hn hpoint
    rw [isOdd_neg_ofZMod hc.p_odd hy, hodd]

/-- The low form of a signature tells a nonce point too, and its response is in the lower half. -/
theorem TellsNonce.lowForm {hc : key.curve.Checks} (hn : key.curve.n ≠ 2) {z : ZMod key.curve.n}
    {signed : RecoverableSignature} (h : key.TellsNonce hc z signed) :
    key.TellsNonce hc z (signed.lowForm key.curve) ∧
      (signed.lowForm key.curve).signature.s ≤ (key.curve.n - 1) / 2 := by
  have hodd := (Fact.out : key.curve.n.Prime).eq_two_or_odd.resolve_left hn
  obtain ⟨-, hsn⟩ := Curve.inScalarRange_iff.mp h.s_range
  unfold RecoverableSignature.lowForm
  by_cases hlow : signed.signature.isLowS key.curve
  · rw [if_pos hlow]
    rw [EcdsaSignature.isLowS_iff] at hlow
    exact ⟨h, by omega⟩
  · rw [if_neg hlow, EcdsaSignature.normalize_eq_min hsn]
    rw [EcdsaSignature.isLowS_iff] at hlow
    rw [min_eq_right (by omega)]
    refine ⟨h.opposite hn, ?_⟩
    show key.curve.n - signed.signature.s ≤ (key.curve.n - 1) / 2
    omega

/-! ## What the verifier makes of it -/

/-- The nonce point under the own public key is the point of the nonce that belongs to the
response. -/
theorem noncePoint_publicKey (hc : key.curve.Checks) (z : ℕ) (sig : EcdsaSignature) :
    (key.publicKey hc).noncePoint z sig =
      .ok (Affine.ofPoint (hc.multiples (key.response z sig.r sig.s))) := by
  -- The sum `z G + r Q` is a multiple of the generator.
  have hsum : z • hc.generator + sig.r • hc.multiples (key.scalar.value : ZMod key.curve.n) =
      hc.multiples (z + sig.r * key.scalar.value) := by
    rw [map_add, ← nsmul_eq_mul, map_nsmul, Curve.multiples_natCast, Curve.multiples_natCast]
  rw [VerifyingKey.noncePoint, publicKey]
  dsimp only
  rw [← hc.ofPoint_generator, Affine.scalarMul_ofPoint hc, ok_bind, Affine.scalarMul_ofPoint hc,
    ok_bind, Affine.add_ofPoint hc, ok_bind, Affine.scalarMul_ofPoint hc, hsum,
    Curve.val_smul_multiples, response]

/-- The low form of a signature that tells its nonce point has its numbers in range, is accepted and
comes with the right parity. -/
theorem TellsNonce.lowSigned {hc : key.curve.Checks} (hn : key.curve.n ≠ 2) {z : ℕ}
    {signed : RecoverableSignature} (h : key.TellsNonce hc z signed) :
    (key.publicKey hc).LowSigned z (signed.lowForm key.curve) := by
  obtain ⟨htells, hlow⟩ := h.lowForm hn
  obtain ⟨valid, hvalid, hiff⟩ :=
    exists_verifyPrehash_tellsNonce hc z (signed.lowForm key.curve).signature
  obtain ⟨x, y, hxy, hpoint, -, hodd⟩ := htells.point
  refine ⟨Curve.inScalarRange_iff.mp htells.r_range,
    ⟨(Curve.inScalarRange_iff.mp htells.s_range).left, hlow⟩, ?_, ofZMod x, ofZMod y, ?_, hodd⟩
  · rw [hvalid, hiff.mpr ⟨_, htells⟩]
  · rw [noncePoint_publicKey, hpoint, Affine.ofPoint_some]

end TellsNonce

end SigningKey

/-- Deterministic signing gives low signatures with the parity of their nonce points, however nonces
are derived. On an accepted curve of prime modulus and group order, the verifying key of a signing
key exists; every signature of a digest has both numbers in range and a response of at most half the
group order, is accepted, and comes with the parity of the nonce point that its numbers tell. So
does the low form of a signature with any nonce in range, unless the group order is two. -/
theorem signDigest_lowSigned [Digests] {key : SigningKey} (hc : key.curve.Accepted)
    (hp : key.curve.p.Prime) (hn : key.curve.n.Prime) :
    ∃ vk, key.verifyingKey = .ok vk ∧ vk.curve = key.curve ∧
      (∀ digest signed, key.signDigest digest = .ok signed → vk.LowSigned digest.toNat signed) ∧
      (key.curve.n ≠ 2 → ∀ z k signed, 1 ≤ k → k < key.curve.n →
        key.signWithNonce ⟨z % key.curve.n, key.curve.n⟩ ⟨k⟩ = .ok (some signed) →
          vk.LowSigned z (signed.lowForm key.curve)) := by
  have := Fact.mk hp
  have := Fact.mk hn
  have hk := hc.checks
  refine ⟨key.publicKey hk, SigningKey.verifyingKey_eq hk, rfl, ?_, ?_⟩
  · intro digest signed h
    obtain ⟨hodd, k, made, hrange, hmade, rfl⟩ := SigningKey.exists_nonce_of_signDigest h
    exact (SigningKey.tellsNonce_of_signWithNonce hk hrange hmade).lowSigned hodd
  · intro hodd z k signed h₁ hlt h
    have hz : (⟨z % key.curve.n, key.curve.n⟩ : FieldElement) =
        ofZMod (z : ZMod key.curve.n) := by
      rw [ofZMod, ZMod.val_natCast]
    rw [hz] at h
    have hrange : key.curve.inScalarRange k := Curve.inScalarRange_iff.mpr ⟨h₁, hlt⟩
    exact (SigningKey.tellsNonce_of_signWithNonce (k := ⟨k⟩) hk hrange h).lowSigned hodd

/-- The secret one of the default curve signs a digest of 32 equal bytes. The derived nonce has a
point of even ordinate and the higher response, so the lower one comes with an odd ordinate. -/
theorem secp256k1_lowSigned :
    let key : SigningKey := ⟨⟨1⟩, Curve.secp256k1⟩
    let digest : Bytes := List.replicate 32 2
    let signed : RecoverableSignature :=
      ⟨⟨0xf6f582e54ed3bebdb6d1fb1237f7d77c58bd45c32e808e1f2fb73bb467c5f2bc,
        0x33f4570a8a8acb2ede0dcbdafc5de773846ae699acdcac9406fd1ab7f49e82a8⟩, true⟩
    key.signDigest digest = .ok signed ∧
      ∃ vk, key.verifyingKey = .ok vk ∧ vk.LowSigned digest.toNat signed := by
  intro key digest signed
  have hsigned : key.signDigest digest = .ok signed := by
    decide +kernel
  obtain ⟨vk, hvk, -, hlow, -⟩ := @signDigest_lowSigned _ ⟨⟨1⟩, Curve.secp256k1⟩
    Curve.accepted_secp256k1 Curve.prime_p_secp256k1 Curve.prime_n_secp256k1
  exact ⟨hsigned, vk, hvk, hlow digest signed hsigned⟩

end EllipticSignatures
