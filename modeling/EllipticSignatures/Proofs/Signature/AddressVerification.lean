import EllipticSignatures.Proofs.Key.Verifying
import EllipticSignatures.Proofs.Signature.Ecdsa
import EllipticSignatures.Proofs.Signature.Message

/-!
# Verification under an address is sound

Verification under an address recovers public points from the signature, and verification under a
key recomputes the nonce point from the key. If the group order annihilates every point, the second
computation undoes the first: the point `(z / s) G + (r / s) Q` of a recovered `Q` is the nonce
point that `Q` was recovered from, and its abscissa is `r` (`verified_recovered`). A signature that
is accepted under an address is therefore accepted under some key with that address
(`verifyMessage_of_verifyOn`).
-/

namespace EllipticSignatures

open FieldElement

namespace MessageSignature

variable {c : Curve} [Fact c.p.Prime] [Fact c.n.Prime]

/-- The point that verification computes from a recovered public point is the nonce point. -/
theorem verified_recovered (hc : c.Checks) (hone : ∀ T : c.Point, c.n • T = 0) (z : ZMod c.n)
    {r s : ZMod c.n} (hr : r ≠ 0) (hs : s ≠ 0) (R : c.Point) :
    hc.multiples (z * s⁻¹) + (r * s⁻¹).val • recovered hc z r s R = R := by
  -- The multiples of the generator cancel.
  have hgenerator : z * s⁻¹ + r * s⁻¹ * (-z * r⁻¹) = 0 := by
    field_simp
    ring
  -- The multiples of the nonce point add up to one.
  have hnonce : r * s⁻¹ * (s * r⁻¹) = ((1 : ℕ) : ZMod c.n) := by
    rw [Nat.cast_one]
    field_simp
  calc hc.multiples (z * s⁻¹) + (r * s⁻¹).val • recovered hc z r s R
      = hc.multiples (z * s⁻¹ + r * s⁻¹ * (-z * r⁻¹)) + (r * s⁻¹).val • (s * r⁻¹).val • R := by
        rw [recovered, nsmul_add, Curve.val_smul_multiples, ← add_assoc, ← map_add]
    _ = (r * s⁻¹).val • (s * r⁻¹).val • R := by
        rw [hgenerator, map_zero, zero_add]
    _ = R := by
        -- The order divides `n`, so the multiples of `R` depend on residues only.
        rw [← Curve.multiples_eq_val_smul (hone R), Curve.val_smul_multiples, hnonce,
          Curve.multiples_natCast, one_smul]

/-- A recovered public point accepts the signature that it is recovered from. -/
theorem verifyPrehash_recovered (hc : c.Checks) (hone : ∀ T : c.Point, c.n • T = 0) {r s : ℕ}
    (hr : c.inScalarRange r) (hs : c.inScalarRange s) (hrp : r < c.p) (z : ℕ) {y : ZMod c.p}
    (h : c.weierstrass.Nonsingular (r : ZMod c.p) y) :
    VerifyingKey.verifyPrehash
      ⟨Affine.ofPoint (recovered hc z r s (.some (r : ZMod c.p) y h)), c⟩ z ⟨r, s⟩ = .ok true := by
  obtain ⟨valid, hvalid, hiff⟩ := VerifyingKey.exists_verifyPrehash hc
    (recovered hc z r s (.some (r : ZMod c.p) y h)) z r s
  rw [hvalid, Except.ok.injEq, hiff]
  refine ⟨hr, hs, r, y, h, ?_, ?_⟩
  · exact verified_recovered hc hone z (Curve.cast_ne_zero_of_inScalarRange hr)
      (Curve.cast_ne_zero_of_inScalarRange hs) _
  · rw [ZMod.val_natCast_of_lt hrp]

/-- Each candidate is a finite point of the curve that accepts the signature as a key. -/
theorem exists_sound_recoverCandidates (hc : c.Checks) (hone : ∀ T : c.Point, c.n • T = 0)
    (sig : EcdsaSignature) (z : ℕ) :
    ∃ candidates, recoverCandidates c sig z = .ok candidates ∧
      ∀ Q ∈ candidates, (∃ T : c.Point, T ≠ 0 ∧ Q = Affine.ofPoint T) ∧
        VerifyingKey.verifyPrehash ⟨Q, c⟩ z sig = .ok true := by
  obtain ⟨r, s⟩ := sig
  by_cases hrange : c.inScalarRange r ∧ c.inScalarRange s ∧ r < c.p
  · obtain ⟨hr, hs, hrp⟩ := hrange
    obtain ⟨candidates, hcandidates, hmem⟩ := exists_recoverCandidates hc hr hs hrp z
    refine ⟨candidates, hcandidates, ?_⟩
    intro Q hQ
    obtain ⟨y, h, hne, rfl⟩ := (hmem Q).mp hQ
    exact ⟨⟨_, hne, rfl⟩, verifyPrehash_recovered hc hone hr hs hrp z h⟩
  · exact ⟨[], recoverCandidates_of_out_of_range hrange z, by simp⟩

end MessageSignature

/-- Acceptance under an address needs two texts that can be read. -/
theorem SignedMessage.exists_of_verifyOn [Digests] {c : Curve} {address : String} {message : Bytes}
    {signature : String} (h : verifyOn c address message signature = .ok true) :
    ∃ parsed sig candidates, Address.ofText address = .ok parsed ∧
      MessageSignature.ofBase64 signature = .ok sig ∧
      MessageSignature.recoverCandidates c sig.toEcdsa (digest message).toNat = .ok candidates ∧
      MessageSignature.anyHasAddress c sig.format parsed candidates = .ok true := by
  rw [verifyOn] at h
  cases haddress : Address.ofText address with
  | error cause => simp [haddress] at h
  | ok parsed =>
    cases hsignature : MessageSignature.ofBase64 signature with
    | error cause => simp [haddress, hsignature] at h
    | ok sig =>
      rw [haddress, hsignature] at h
      obtain ⟨candidates, hcandidates, hfound⟩ := bind_eq_ok.mp h
      exact ⟨parsed, sig, candidates, rfl, rfl, hcandidates, hfound⟩

/-- Verification under an address never accepts what verification under a key rejects. On an
accepted curve of prime modulus and group order whose group order annihilates every point, if a
signature text is valid for an address text, both texts can be read, and there is a key with that
address, in the form that the header of the signature names, under which the signature is valid. -/
theorem verifyMessage_of_verifyOn [Digests] {c : Curve} (hc : c.Accepted) (hp : c.p.Prime)
    (hn : c.n.Prime) (hone : c.CofactorOne) {address : String} {message : Bytes}
    {signature : String}
    (h : SignedMessage.verifyOn c address message signature = .ok true) :
    ∃ parsed sig Q vk, Address.ofText address = .ok parsed ∧
      MessageSignature.ofBase64 signature = .ok sig ∧ VerifyingKey.ofAffine Q c = .ok vk ∧
      vk.address sig.format = .ok parsed ∧ vk.verifyMessage message sig = .ok true := by
  have := Fact.mk hp
  have := Fact.mk hn
  have hk := hc.checks
  obtain ⟨parsed, sig, candidates, haddress, hsignature, hcandidates, hfound⟩ :=
    SignedMessage.exists_of_verifyOn h
  obtain ⟨candidates', hcandidates', hsound⟩ := MessageSignature.exists_sound_recoverCandidates hk
    (hone.order_smul hk) sig.toEcdsa (SignedMessage.digest message).toNat
  obtain rfl := Except.ok.inj (hcandidates.symm.trans hcandidates')
  -- The search stops at a candidate with the address, which is a key that accepts the signature.
  obtain ⟨valid, hvalid, hiff⟩ := MessageSignature.exists_anyHasAddress sig.format parsed
    fun Q hQ => (hsound Q hQ).left
  obtain rfl := Except.ok.inj (hfound.symm.trans hvalid)
  obtain ⟨Q, hQ, hsame⟩ := hiff.mp rfl
  obtain ⟨⟨T, hT, rfl⟩, hverify⟩ := hsound Q hQ
  have hfinite : Affine.ofPoint T ≠ .infinity := Affine.ofPoint_eq_infinity_iff.not.mpr hT
  have hkey : VerifyingKey.ofAffine (Affine.ofPoint T) c = .ok ⟨Affine.ofPoint T, c⟩ :=
    VerifyingKey.ofAffine_eq_ok_iff.mpr ⟨hfinite, (Affine.onCurve_ofPoint hk T).passes, rfl⟩
  exact ⟨parsed, sig, _, _, haddress, hsignature, hkey, hsame, hverify⟩

/-- On the curve with 13 points the signature `(4, 10)` of a message of two bytes is valid for the
address of the generator, and so it is under some key with that address. -/
theorem thirteen_verifyMessage_of_verifyOn :
    let address := Address.ofSec1 [0x03, 0x04]
    let sig : MessageSignature := ⟨.compressed, 1, Block.ofNat 32 4, Block.ofNat 32 10⟩
    SignedMessage.verifyOn Curve.thirteen address.toText [0x68, 0x69] sig.toBase64 = .ok true ∧
      ∃ Q vk, VerifyingKey.ofAffine Q Curve.thirteen = .ok vk ∧
        vk.address .compressed = .ok address ∧ vk.verifyMessage [0x68, 0x69] sig = .ok true := by
  intro address sig
  have hnumbers : sig.toEcdsa = ⟨4, 10⟩ := by decide
  have hcandidates : MessageSignature.recoverCandidates Curve.thirteen ⟨4, 10⟩
      (SignedMessage.digest [0x68, 0x69]).toNat =
        .ok [.point ⟨4, 19⟩ ⟨3, 19⟩, .point ⟨9, 19⟩ ⟨3, 19⟩] := by
    decide +kernel
  have hencoded : (Affine.point ⟨4, 19⟩ ⟨3, 19⟩).toSec1 .compressed Curve.thirteen =
      .ok [0x03, 0x04] := by
    rfl
  have hvalid : SignedMessage.verifyOn Curve.thirteen address.toText [0x68, 0x69] sig.toBase64 =
      .ok true := by
    rw [SignedMessage.verifyOn_toText, hnumbers, hcandidates, ok_bind,
      MessageSignature.anyHasAddress, hencoded]
    exact if_pos rfl
  obtain ⟨parsed, sig', Q, vk, haddress, hsig, hkey, hsame, hverify⟩ :=
    verifyMessage_of_verifyOn Curve.accepted_thirteen Curve.prime_p_thirteen
      Curve.prime_n_thirteen Curve.cofactorOne_thirteen hvalid
  rw [Address.ofText_toText, Except.ok.injEq] at haddress
  rw [MessageSignature.ofBase64_toBase64, Except.ok.injEq] at hsig
  subst haddress hsig
  exact ⟨hvalid, Q, vk, hkey, hsame, hverify⟩

end EllipticSignatures
