import Mathlib.Tactic.NormNum.Prime
import EllipticSignatures.Proofs.Key.Verifying
import EllipticSignatures.Proofs.Lucas
import EllipticSignatures.Proofs.Signature.Schnorr

/-!
# What Schnorr signing gives on other curves

Signing asks neither of the two things that hold for the default curve and make it work.

* The opposite of a nonce point is to have a square ordinate when the point itself has not. That
  needs a modulus that is three modulo four. For other moduli both ordinates have the same
  quadratic symbol, and a signature is handed out that is not valid
  (`verifySchnorr_of_signSchnorr_iff`), as on `Curve.oneModFour`.
* The response is a residue modulo the group order, but it is written in the bytes of a coordinate.
  A response that needs more is a fault (`signSchnorr_outcome`), as on `Curve.wideOrder`.
-/

namespace EllipticSignatures

open FieldElement

/-! ## Which signatures are valid -/

/-- Which new signatures are valid. On an accepted curve of prime modulus and prime group order, a
signature that a key gives a message holds the abscissa of the nonce point. It is valid under the
verifying key exactly if the ordinate of that point has symbol one, or symbol minus one and the
modulus is three modulo four, and so are its bytes. -/
theorem verifySchnorr_of_signSchnorr_iff [Digests] {key : SigningKey} (hc : key.curve.Accepted)
    (hp : key.curve.p.Prime) (hn : key.curve.n.Prime) {message : Bytes} {sig : SchnorrSignature}
    (h : key.signSchnorr message = .ok sig) :
    ∃ x y symbol vk,
      PointGroup.scalarMul key.curve.generator (key.schnorrNonce message).val key.curve =
        .ok (.point x y) ∧
      y.legendre = .ok symbol ∧ sig.r.toNat = x.value ∧ key.verifyingKey = .ok vk ∧
      vk.verifySchnorr message sig =
        .ok (decide (symbol = 1 ∨ symbol = -1 ∧ key.curve.p % 4 = 3)) ∧
      vk.verifySchnorrBytes message sig.toBytes =
        .ok (decide (symbol = 1 ∨ symbol = -1 ∧ key.curve.p % 4 = 3)) := by
  have := Fact.mk hp
  have := Fact.mk hn
  have hk := hc.checks
  obtain ⟨x, y, hxy, hpoint, hr, hverify⟩ := SigningKey.verifySchnorr_signed hk h
  refine ⟨ofZMod x, ofZMod y, quadraticChar _ y, key.publicKey hk, ?_,
    legendre_ofZMod hk.p_ne_two y, hr, SigningKey.verifyingKey_eq hk, hverify, ?_⟩
  · rw [hk.scalarMul_generator, ZMod.natCast_zmod_val, hpoint, Affine.ofPoint_some]
  · rw [VerifyingKey.verifySchnorrBytes_toBytes, hverify]

namespace Curve

/-- The curve `y² = x³ + 17` over a field of prime modulus one modulo four, with prime group order.
Its coordinates are as wide as those of the default curve, but minus one is a square.

For any `s` the numbers `s² + s + 1` and `s² - s + 1` are the modulus and the order of a curve
`y² = x³ + b`, if both are prime. Here `s` is the product of small primes
`12 · 140417 · 150329 · 162017 · 219629 · 221447 · 255589 · 258353`, which gives the primality of
both. -/
def oneModFour : Curve :=
  let p := 0x2667f4bfeb702924dbdf0190ea8c55493800ce8a29fc8b8084b4fa58894e0a85
  { name := "one modulo four"
    p := p
    n := 0x2667f4bfeb702924dbdf0190ea8c554871b0d269c6c90fc48d651de12e73169d
    a := ⟨0, p⟩
    b := ⟨17, p⟩
    generator := .point ⟨2, p⟩ ⟨5, p⟩ }

theorem accepted_oneModFour : oneModFour.Accepted :=
  ⟨oneModFour.p, oneModFour.n, 0, 17, 2, 5, by decide +kernel⟩

/-- The factors of `s`. -/
private theorem prime_factors_oneModFour :
    [2, 2, 3, 140417, 150329, 162017, 219629, 221447, 255589, 258353].Forall Nat.Prime := by
  norm_num

theorem prime_p_oneModFour : oneModFour.p.Prime := by
  have hsucc : Nat.Prime 131801224175230085201283046071834868213 :=
    prime_of_lucasTest 2 _ [] prime_factors_oneModFour trivial (by decide +kernel)
  exact prime_of_lucasTest 5 _ [131801224175230085201283046071834868213]
    prime_factors_oneModFour hsucc (by decide +kernel)

theorem prime_n_oneModFour : oneModFour.n.Prime := by
  have hlarge : Nat.Prime 1030634090237 :=
    prime_of_lucasTest 2 [2, 2, 659, 5119, 76379] [] (by norm_num) trivial (by decide +kernel)
  have hsmall : [7, 1847, 5399, 8431, 14957, 31139, 466561].Forall Nat.Prime := by
    norm_num
  exact prime_of_lucasTest 6 _ ([7, 1847, 5399, 8431, 14957, 31139, 466561] ++ [1030634090237])
    prime_factors_oneModFour (List.forall_append.mpr ⟨hsmall, hlarge⟩) (by decide +kernel)

end Curve

/-- The secret one of `Curve.oneModFour` signs a message of two bytes, and the signature does not
verify. -/
theorem oneModFour_run :
    let key : SigningKey := ⟨⟨1⟩, Curve.oneModFour⟩
    ∃ sig vk, key.signSchnorr [0x68, 0x69] = .ok sig ∧ key.verifyingKey = .ok vk ∧
      vk.verifySchnorr [0x68, 0x69] sig = .ok false := by
  intro key
  have hrun : (do
      let sig ← key.signSchnorr [0x68, 0x69]
      let vk ← Outcome.ofChecked key.verifyingKey
      Outcome.ofChecked (vk.verifySchnorr [0x68, 0x69] sig)) = .ok false := by decide +kernel
  obtain ⟨sig, hsig, hrun⟩ := bind_eq_ok.mp hrun
  obtain ⟨vk, hvk, hverify⟩ := bind_eq_ok.mp hrun
  rw [Outcome.ofChecked_eq_ok] at hvk hverify
  exact ⟨sig, vk, hsig, hvk, hverify⟩

/-- The nonce point of that message has an ordinate whose symbol is not one, as the answer of the
verifier tells. -/
theorem oneModFour_verifySchnorr_of_signSchnorr :
    let key : SigningKey := ⟨⟨1⟩, Curve.oneModFour⟩
    ∃ sig x y symbol, key.signSchnorr [0x68, 0x69] = .ok sig ∧
      PointGroup.scalarMul key.curve.generator (key.schnorrNonce [0x68, 0x69]).val key.curve =
        .ok (.point x y) ∧
      sig.r.toNat = x.value ∧ y.legendre = .ok symbol ∧ symbol ≠ 1 := by
  intro key
  obtain ⟨sig, vk, hsig, hvk, hverify⟩ := oneModFour_run
  obtain ⟨x, y, symbol, vk', hpoint, hsymbol, hr, hvk', hverify', -⟩ :=
    @verifySchnorr_of_signSchnorr_iff _ key Curve.accepted_oneModFour Curve.prime_p_oneModFour
      Curve.prime_n_oneModFour _ _ hsig
  obtain rfl := Except.ok.inj (hvk.symm.trans hvk')
  rw [hverify, Except.ok.injEq, eq_comm, decide_eq_false_iff_not, not_or] at hverify'
  exact ⟨sig, x, y, symbol, hsig, hpoint, hr, hsymbol, hverify'.left⟩

/-- On an accepted curve of prime group order, whose modulus is a prime that is one modulo four, a
signature does not verify. -/
theorem oneModFour_not_verifySchnorr :
    let key : SigningKey := ⟨⟨1⟩, Curve.oneModFour⟩
    Curve.oneModFour.Accepted ∧ Curve.oneModFour.p.Prime ∧ Curve.oneModFour.p % 4 = 1 ∧
      Curve.oneModFour.n.Prime ∧ Curve.oneModFour.n ≠ 2 ∧
      ∃ sig vk, key.signSchnorr [0x68, 0x69] = .ok sig ∧ key.verifyingKey = .ok vk ∧
        vk.verifySchnorr [0x68, 0x69] sig = .ok false :=
  ⟨Curve.accepted_oneModFour, Curve.prime_p_oneModFour, by decide, Curve.prime_n_oneModFour,
    by decide, oneModFour_run⟩

/-! ## When signing ends in a fault -/

namespace SchnorrSignature

variable {width : ℕ} {r : Bytes} {s : FieldElement}

/-- A response that does not fit is a fault. -/
theorem ofResponse_of_le (h : 256 ^ width ≤ s.value) :
    ofResponse width r s = .error (.fault .elementTooWide) := by
  have hwide : ¬Bytes.width s.value ≤ width := fun hw =>
    absurd (Bytes.width_le_iff.mp hw).right (not_lt.mpr h)
  rw [ofResponse, FieldElement.toBytes, if_neg hwide]
  rfl

/-- A response that fits is written, and the bytes are read as a signature. -/
theorem ofResponse_of_lt (hwidth : 1 ≤ width) (h : s.value < 256 ^ width) :
    ofResponse width r s = Outcome.ofExcept (ofBytes (r ++ Bytes.bigEndian width s.value)) := by
  rw [ofResponse, FieldElement.toBytes, if_pos (Bytes.width_le_iff.mpr ⟨hwidth, h⟩),
    Outcome.liftM_checked, Outcome.ofChecked_ok, ok_bind]

/-- Two halves of another length than 32 are refused. -/
theorem ofResponse_of_ne (hr : r.length = width) (hwidth : 1 ≤ width) (h : s.value < 256 ^ width)
    (hne : width ≠ 32) : ofResponse width r s = Outcome.refuse .invalidSignatureEncoding := by
  rw [ofResponse_of_lt hwidth h, ofBytes]
  cases hread : ofBytes? (r ++ Bytes.bigEndian width s.value) with
  | none => rfl
  | some sig =>
    have hsig : ofBytes (r ++ Bytes.bigEndian width s.value) = .ok sig := by rw [ofBytes, hread]
    obtain ⟨hfirst, -⟩ := bytes_of_ofBytes (hr.trans (Bytes.length_bigEndian _ _).symm) hsig
    have hlength := sig.r.length_eq
    rw [hfirst, hr] at hlength
    exact absurd hlength hne

/-- Two halves of 32 bytes are a signature. -/
theorem exists_ofResponse (hr : r.length = width) (h : s.value < 256 ^ width) (heq : width = 32) :
    ∃ sig, ofResponse width r s = .ok sig ∧ sig.r.bytes = r ∧ sig.s.toNat = s.value := by
  subst heq
  let sig : SchnorrSignature :=
    ⟨⟨r, hr⟩, ⟨Bytes.bigEndian 32 s.value, Bytes.length_bigEndian 32 s.value⟩⟩
  refine ⟨sig, ?_, rfl, ?_⟩
  · rw [ofResponse_of_lt (by decide) h]
    exact congrArg Outcome.ofExcept (ofBytes_toBytes sig)
  · exact Bytes.toNat_bigEndian_of_width_le (Bytes.width_le_iff.mpr ⟨by decide, h⟩)

/-- A response that fits is answered. -/
theorem answers_ofResponse (hr : r.length = width) (hwidth : 1 ≤ width)
    (h : s.value < 256 ^ width) : (ofResponse width r s).Answers := by
  by_cases heq : width = 32
  · obtain ⟨sig, hsig, -⟩ := exists_ofResponse hr h heq
    rw [hsig]
    exact Outcome.answers_ok sig
  · rw [ofResponse_of_ne hr hwidth h heq]
    exact Outcome.answers_refuse _

end SchnorrSignature

/-- With a nonce other than zero, a key in range signs unless its response does not fit. -/
theorem SigningKey.exists_signSchnorr_eq_ofResponse [Digests] {key : SigningKey}
    [Fact key.curve.p.Prime] [Fact key.curve.n.Prime] (hc : key.curve.Checks)
    (hrange : key.curve.inScalarRange key.scalar.value) {message : Bytes}
    (hk : key.schnorrNonce message ≠ 0) :
    ∃ x y hxy encodedKey, hc.multiples (key.schnorrNonce message) = .some x y hxy ∧
      (key.publicKey hc).toSec1 .compressed = .ok encodedKey ∧
      key.signSchnorr message = SchnorrSignature.ofResponse key.curve.fieldBytes
        (Bytes.bigEndian key.curve.fieldBytes x.val)
        (ofZMod (key.schnorrResponse message (Bytes.bigEndian key.curve.fieldBytes x.val)
          encodedKey (quadraticChar _ y))) := by
  have hsound := (publicKey_sound_iff hc).mpr (hc.scalarMul_generator_ne_infinity Fact.out hrange)
  obtain ⟨encodedKey, hkey⟩ := hsound.encodes .compressed
  obtain ⟨x, y, hxy, hpoint, hsign⟩ := exists_signSchnorr_eq hc hk
  exact ⟨x, y, hxy, encodedKey, hpoint, hkey, by rw [hsign, hkey, Outcome.ofChecked_ok, ok_bind]⟩

/-- What signing gives. On an accepted curve of prime modulus and prime group order, a key in range
refuses to sign if the nonce is zero. Otherwise there are a nonce point, an encoded public key and a
response. A response that needs more bytes than the modulus is a fault. One that fits is refused if
a coordinate does not have 32 bytes, and makes up the signature together with the abscissa if it
has. There is no other fault, and none at all if the group order fits the bytes of the modulus. -/
theorem signSchnorr_outcome [Digests] {key : SigningKey} (hc : key.curve.Accepted)
    (hp : key.curve.p.Prime) (hn : key.curve.n.Prime)
    (hrange : key.curve.inScalarRange key.scalar.value) (message : Bytes) :
    (key.schnorrNonce message = 0 →
      key.signSchnorr message = Outcome.refuse .degenerateNonce) ∧
    (key.schnorrNonce message ≠ 0 → ∃ x y symbol vk encodedKey r s,
      PointGroup.scalarMul key.curve.generator (key.schnorrNonce message).val key.curve =
        .ok (.point x y) ∧
      y.legendre = .ok symbol ∧ key.verifyingKey = .ok vk ∧
      vk.toSec1 .compressed = .ok encodedKey ∧
      r = Bytes.bigEndian key.curve.fieldBytes x.value ∧
      s = (key.schnorrResponse message r encodedKey symbol).val ∧
      (256 ^ key.curve.fieldBytes ≤ s →
        key.signSchnorr message = .error (.fault .elementTooWide)) ∧
      (s < 256 ^ key.curve.fieldBytes → key.curve.fieldBytes ≠ 32 →
        key.signSchnorr message = Outcome.refuse .invalidSignatureEncoding) ∧
      (s < 256 ^ key.curve.fieldBytes → key.curve.fieldBytes = 32 →
        ∃ sig, key.signSchnorr message = .ok sig ∧ sig.r.bytes = r ∧ sig.s.toNat = s)) ∧
    (key.curve.n ≤ 256 ^ key.curve.fieldBytes → (key.signSchnorr message).Answers) := by
  have := Fact.mk hp
  have := Fact.mk hn
  have hk := hc.checks
  have hwidth : 1 ≤ key.curve.fieldBytes :=
    (Bytes.width_le_iff.mp (Curve.width_le_fieldBytes (0 : ZMod key.curve.p))).left
  refine ⟨SigningKey.signSchnorr_of_nonce_eq_zero, ?_, ?_⟩
  · intro hnonce
    obtain ⟨x, y, hxy, encodedKey, hpoint, hencoded, hsign⟩ :=
      SigningKey.exists_signSchnorr_eq_ofResponse hk hrange hnonce
    have hr := Bytes.length_bigEndian key.curve.fieldBytes x.val
    -- The symbol, a quadratic character here, is the one the program computes for the ordinate.
    generalize hs : key.schnorrResponse message _ encodedKey _ = s at hsign
    refine ⟨ofZMod x, ofZMod y, quadraticChar _ y, key.publicKey hk, encodedKey, _, s.val, ?_,
      legendre_ofZMod hk.p_ne_two y, SigningKey.verifyingKey_eq hk, hencoded, rfl, ?_, ?_⟩
    · rw [hk.scalarMul_generator, ZMod.natCast_zmod_val, hpoint, Affine.ofPoint_some]
    · rw [value_ofZMod, hs]
    · rw [hsign, value_ofZMod, ← value_ofZMod s]
      exact ⟨SchnorrSignature.ofResponse_of_le, SchnorrSignature.ofResponse_of_ne hr hwidth,
        SchnorrSignature.exists_ofResponse hr⟩
  · intro hn
    by_cases hnonce : key.schnorrNonce message = 0
    · rw [SigningKey.signSchnorr_of_nonce_eq_zero hnonce]
      exact Outcome.answers_refuse _
    · obtain ⟨x, y, -, encodedKey, -, -, hsign⟩ :=
        SigningKey.exists_signSchnorr_eq_ofResponse hk hrange hnonce
      rw [hsign]
      exact SchnorrSignature.answers_ofResponse (Bytes.length_bigEndian _ _) hwidth
        ((ZMod.val_lt _).trans_le hn)

/-- The curve `y² = x³ + x + 4` over the field of 251 elements, which has 271 points. A scalar can
take two bytes, where a coordinate takes one. -/
def Curve.wideOrder : Curve :=
  { name := "wide order"
    p := 251
    n := 271
    a := ⟨1, 251⟩
    b := ⟨4, 251⟩
    generator := .point ⟨0, 251⟩ ⟨2, 251⟩ }

theorem Curve.accepted_wideOrder : Curve.wideOrder.Accepted :=
  ⟨251, 271, 1, 4, 0, 2, by rfl⟩

theorem Curve.prime_p_wideOrder : Curve.wideOrder.p.Prime := by
  rw [Curve.wideOrder]
  norm_num

theorem Curve.prime_n_wideOrder : Curve.wideOrder.n.Prime := by
  rw [Curve.wideOrder]
  norm_num

/-- The secret two of that curve has the nonce zero for the message `d` and refuses to sign it. The
secret two of the default curve answers the same message. -/
theorem wideOrder_secp256k1_signSchnorr :
    (SigningKey.mk ⟨2⟩ Curve.wideOrder).signSchnorr [0x64] = Outcome.refuse .degenerateNonce ∧
      ((SigningKey.mk ⟨2⟩ Curve.secp256k1).signSchnorr [0x64]).Answers := by
  have hzero : (SigningKey.mk ⟨2⟩ Curve.wideOrder).schnorrNonce [0x64] = 0 := by decide +kernel
  obtain ⟨hrefused, -⟩ := @signSchnorr_outcome _ ⟨⟨2⟩, Curve.wideOrder⟩ Curve.accepted_wideOrder
    Curve.prime_p_wideOrder Curve.prime_n_wideOrder (by decide) [0x64]
  obtain ⟨-, -, hanswers⟩ := @signSchnorr_outcome _ ⟨⟨2⟩, Curve.secp256k1⟩ Curve.accepted_secp256k1
    Curve.prime_p_secp256k1 Curve.prime_n_secp256k1 (by decide) [0x64]
  have hfits : Curve.secp256k1.n ≤ 256 ^ Curve.secp256k1.fieldBytes :=
    (show Curve.secp256k1.n ≤ Curve.secp256k1.p by decide).trans (lt_pow_byteLength _).le
  exact ⟨hrefused hzero, hanswers hfits⟩

/-- On an accepted curve of prime modulus and prime group order, signing the message `a` with the
secret three ends in a fault: the response has two bytes. -/
theorem wideOrder_signSchnorr_elementTooWide :
    Curve.wideOrder.Accepted ∧ Curve.wideOrder.p.Prime ∧ Curve.wideOrder.n.Prime ∧
      Curve.wideOrder.inScalarRange 3 ∧
      (SigningKey.mk ⟨3⟩ Curve.wideOrder).signSchnorr [0x61] = .error (.fault .elementTooWide) :=
  ⟨Curve.accepted_wideOrder, Curve.prime_p_wideOrder, Curve.prime_n_wideOrder, by decide,
    by decide +kernel⟩

end EllipticSignatures
