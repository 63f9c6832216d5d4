import EllipticSignatures.Proofs.Signature.Schnorr

/-!
# Responses of Schnorr signatures are unique

The first half of a signature fixes the abscissa of the nonce point, and with the message and the
key it fixes the challenge. Of the two points over an abscissa only one has a square ordinate, since
minus one is not a square (`Curve.eq_of_square_ordinates`), and for a prime group order a multiple
of the generator has one residue as its scalar. One response is therefore left, and no signature
stays valid when its second half is changed (`schnorr_response_unique`).
-/

namespace EllipticSignatures

open FieldElement

/-- For a modulus that is three modulo four, a point whose ordinate is a nonzero square is
determined by its abscissa. -/
theorem Curve.eq_of_square_ordinates {c : Curve} [Fact c.p.Prime] (hp : c.p % 4 = 3)
    {x y₁ y₂ : ZMod c.p} (h₁ : c.weierstrass.Equation x y₁) (h₂ : c.weierstrass.Equation x y₂)
    (hy₁ : quadraticChar (ZMod c.p) y₁ = 1) (hy₂ : quadraticChar (ZMod c.p) y₂ = 1) : y₁ = y₂ := by
  rw [Curve.equation_iff_rhs] at h₁ h₂
  obtain heq | hopposite := mul_self_eq_mul_self_iff.mp (h₁.trans h₂.symm)
  · exact heq
  · -- Opposite ordinates have opposite characters, and both are one.
    rw [hopposite, quadraticChar_neg_eq hp, hy₂] at hy₁
    exact absurd hy₁ (by decide)

namespace VerifyingKey

/-- A valid signature has been checked against an encoding of the key. -/
theorem exists_toSec1_of_verifySchnorr [Digests] {vk : VerifyingKey} {message : Bytes}
    {sig : SchnorrSignature} (h : vk.verifySchnorr message sig = .ok true) :
    ∃ encodedKey, vk.toSec1 .compressed = .ok encodedKey := by
  rw [verifySchnorr] at h
  by_cases hr : vk.curve.p ≤ sig.r.toNat
  · simp [hr] at h
  by_cases hs : vk.curve.n ≤ sig.s.toNat
  · simp [hr, hs] at h
  simp only [hr, hs, if_false] at h
  obtain ⟨encodedKey, hkey, -⟩ := bind_eq_ok.mp h
  exact ⟨encodedKey, hkey⟩

variable {c : Curve} [Fact c.p.Prime] [Fact c.n.Prime] {T : c.Point} {message encodedKey : Bytes}

/-- What a valid signature shows: the response is in range, and the computed point has a square
ordinate and the signed abscissa. -/
theorem exists_point_of_verifySchnorr [Digests] (hc : c.Checks)
    (hkey : (⟨Affine.ofPoint T, c⟩ : VerifyingKey).toSec1 .compressed = .ok encodedKey)
    {sig : SchnorrSignature}
    (h : VerifyingKey.verifySchnorr ⟨Affine.ofPoint T, c⟩ message sig = .ok true) :
    sig.s.toNat < c.n ∧ ∃ x y hxy, hc.multiples sig.s.toNat +
      (-schnorrChallenge c sig.r.bytes encodedKey message).val • T = .some x y hxy ∧
      quadraticChar (ZMod c.p) y = 1 ∧ x.val = sig.r.toNat := by
  obtain ⟨valid, hvalid, hiff⟩ := @exists_verifySchnorr c _ _ _ hc T message _ hkey sig
  obtain rfl := Except.ok.inj (hvalid.symm.trans h)
  exact (hiff.mp rfl).right

/-- Two signatures with the same first half that are valid for one message under one point of the
curve have the same second half. -/
theorem response_eq_of_verifySchnorr [Digests] (hc : c.Checks) (hp : c.p % 4 = 3)
    (hkey : (⟨Affine.ofPoint T, c⟩ : VerifyingKey).toSec1 .compressed = .ok encodedKey)
    {r s₁ s₂ : Block 32}
    (h₁ : VerifyingKey.verifySchnorr ⟨Affine.ofPoint T, c⟩ message ⟨r, s₁⟩ = .ok true)
    (h₂ : VerifyingKey.verifySchnorr ⟨Affine.ofPoint T, c⟩ message ⟨r, s₂⟩ = .ok true) :
    s₁ = s₂ := by
  obtain ⟨hlt₁, x₁, y₁, hxy₁, hpoint₁, hy₁, hx₁⟩ := exists_point_of_verifySchnorr hc hkey h₁
  obtain ⟨hlt₂, x₂, y₂, hxy₂, hpoint₂, hy₂, hx₂⟩ := exists_point_of_verifySchnorr hc hkey h₂
  -- Both computed points have the signed abscissa and a square ordinate, so they are equal.
  obtain rfl : x₁ = x₂ := ZMod.val_injective c.p (hx₁.trans hx₂.symm)
  obtain rfl : y₁ = y₂ := Curve.eq_of_square_ordinates hp hxy₁.left hxy₂.left hy₁ hy₂
  -- The challenge is the same, so the multiples of the generator agree, and with them the scalars.
  have hmultiples : hc.multiples (s₁.toNat : ZMod c.n) = hc.multiples (s₂.toNat : ZMod c.n) :=
    add_right_cancel (hpoint₁.trans hpoint₂.symm)
  have hresidue := hc.multiples_injective Fact.out hmultiples
  apply Block.toNat_injective
  rw [← ZMod.val_natCast_of_lt hlt₁, ← ZMod.val_natCast_of_lt hlt₂]
  exact congrArg ZMod.val hresidue

/-- A signature whose second half differs from that of a valid one is not valid, and neither are
bytes with the same first half and another rest. -/
theorem verifySchnorrBytes_of_ne [Digests] (hc : c.Checks) (hp : c.p % 4 = 3) {r s : Block 32}
    (h : VerifyingKey.verifySchnorr ⟨Affine.ofPoint T, c⟩ message ⟨r, s⟩ = .ok true)
    {other : Bytes} (hother : other ≠ s.bytes) :
    VerifyingKey.verifySchnorrBytes ⟨Affine.ofPoint T, c⟩ message (r.bytes ++ other) =
      .ok false := by
  obtain ⟨encodedKey, hkey⟩ := exists_toSec1_of_verifySchnorr h
  rw [verifySchnorrBytes, SchnorrSignature.ofBytes, SchnorrSignature.ofBytes?,
    Block.take_bytes_append, Block.drop_bytes_append, Block.ofBytes?_bytes]
  by_cases hlength : other.length = 32
  · obtain ⟨block, rfl⟩ : ∃ block : Block 32, block.bytes = other := ⟨⟨other, hlength⟩, rfl⟩
    rw [Block.ofBytes?_bytes]
    -- The altered signature gets an answer, and yes would make the halves equal.
    obtain ⟨valid, hvalid, -⟩ := @exists_verifySchnorr c _ _ _ hc T message _ hkey ⟨r, block⟩
    cases valid with
    | false => exact hvalid
    | true =>
      have heq := response_eq_of_verifySchnorr hc hp hkey hvalid h
      exact absurd (congrArg Block.bytes heq) hother
  · simp [Block.ofBytes?, hlength]

end VerifyingKey

/-- A Schnorr signature has one response. On an accepted curve whose modulus is a prime that is
three modulo four and whose group order is prime, under any key that holds a point of the curve,
two valid signatures of a message that agree in the first half are equal, and a valid signature
with anything else in place of its second half is refused. -/
theorem schnorr_response_unique [Digests] {vk : VerifyingKey} (hc : vk.curve.Accepted)
    (hp : vk.curve.p.Prime) (hp₄ : vk.curve.p % 4 = 3) (hn : vk.curve.n.Prime)
    (hon : vk.point.OnCurve vk.curve) (message : Bytes) (r : Block 32) :
    (∀ s₁ s₂ : Block 32, vk.verifySchnorr message ⟨r, s₁⟩ = .ok true →
      vk.verifySchnorr message ⟨r, s₂⟩ = .ok true → s₁ = s₂) ∧
    ∀ (s : Block 32) (other : Bytes), vk.verifySchnorr message ⟨r, s⟩ = .ok true →
      other ≠ s.bytes → vk.verifySchnorrBytes message (r.bytes ++ other) = .ok false := by
  obtain ⟨P, c⟩ := vk
  have : Fact c.p.Prime := ⟨hp⟩
  have : Fact c.n.Prime := ⟨hn⟩
  obtain ⟨T, rfl⟩ : ∃ T : c.Point, P = Affine.ofPoint T := hon.exists_ofPoint hc.checks
  constructor
  · intro s₁ s₂ h₁ h₂
    obtain ⟨encodedKey, hkey⟩ := VerifyingKey.exists_toSec1_of_verifySchnorr h₁
    exact VerifyingKey.response_eq_of_verifySchnorr hc.checks hp₄ hkey h₁ h₂
  · intro s other h hother
    exact VerifyingKey.verifySchnorrBytes_of_ne hc.checks hp₄ h hother

/-- On the curve with 13 points, under the generator as key, the response seven to the abscissa nine
is valid for a message of two bytes, and nothing else in its place is. -/
theorem thirteen_response_unique :
    let vk : VerifyingKey := ⟨Curve.thirteen.generator, Curve.thirteen⟩
    vk.point.OnCurve Curve.thirteen ∧
      vk.verifySchnorr [0x68, 0x69] ⟨Block.ofNat 32 9, Block.ofNat 32 7⟩ = .ok true ∧
      ∀ other : Bytes, other ≠ (Block.ofNat 32 7).bytes →
        vk.verifySchnorrBytes [0x68, 0x69] ((Block.ofNat 32 9).bytes ++ other) = .ok false := by
  intro vk
  have hon : vk.point.OnCurve Curve.thirteen := ⟨⟨by decide, by decide⟩, by rfl⟩
  have hvalid : vk.verifySchnorr [0x68, 0x69] ⟨Block.ofNat 32 9, Block.ofNat 32 7⟩ = .ok true := by
    decide +kernel
  obtain ⟨-, haltered⟩ := @schnorr_response_unique _ vk Curve.accepted_thirteen
    Curve.prime_p_thirteen (by decide) Curve.prime_n_thirteen hon [0x68, 0x69] (Block.ofNat 32 9)
  exact ⟨hon, hvalid, fun other => haltered _ other hvalid⟩

end EllipticSignatures
