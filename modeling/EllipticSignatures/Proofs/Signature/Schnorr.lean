import EllipticSignatures.Signature.Schnorr
import EllipticSignatures.Proofs.Curve.Secp256k1
import EllipticSignatures.Proofs.Field.QuadraticCharacter
import EllipticSignatures.Proofs.Key.Signing
import EllipticSignatures.Proofs.Point.Sec1

/-!
# Schnorr signatures verify

Verification recomputes the nonce point from the response and the challenge. If minus one is not a
square in the field of coordinates, exactly one of two opposite nonce points has a square ordinate,
and the signer picks it.
-/

namespace EllipticSignatures

open FieldElement

namespace SchnorrSignature

/-- A signature is read back from its bytes. -/
theorem ofBytes_toBytes (sig : SchnorrSignature) : ofBytes sig.toBytes = .ok sig := by
  simp [ofBytes, ofBytes?, toBytes]

/-- A signature read from two halves of equal length consists of the halves. -/
theorem bytes_of_ofBytes {first second : Bytes} (hlength : first.length = second.length)
    {sig : SchnorrSignature} (h : ofBytes (first ++ second) = .ok sig) :
    sig.r.bytes = first ∧ sig.s.bytes = second := by
  rw [ofBytes] at h
  cases hsome : ofBytes? (first ++ second) with
  | none => simp [hsome] at h
  | some found =>
    obtain rfl : found = sig := by simpa [hsome] using h
    simp only [ofBytes?, Option.bind_eq_bind, Option.bind_eq_some_iff,
      Block.ofBytes?_eq_some_iff] at hsome
    obtain ⟨r, hr, s, hs, hsig⟩ := hsome
    obtain rfl := Option.some.inj hsig
    -- Each half of a signature has 32 bytes, which fixes the length of the first half.
    have hrlen := congrArg List.length hr
    have hslen := congrArg List.length hs
    rw [r.length_eq, List.length_take, List.length_append] at hrlen
    rw [s.length_eq, List.length_drop, List.length_append] at hslen
    have hfirst : first.length = 32 := by omega
    exact ⟨hr.trans (List.take_left' hfirst), hs.trans (List.drop_left' hfirst)⟩

/-- The signature with the given bytes of an abscissa and a response that is to be written in as
many bytes. -/
def ofResponse (width : ℕ) (r : Bytes) (s : FieldElement) :
    Outcome SignatureError SchnorrSignature := do
  Outcome.ofExcept (ofBytes (r ++ (← s.toBytes width)))

/-- A signature holds the abscissa and the response that it is made of. -/
theorem of_ofResponse_eq_ok {width : ℕ} {r : Bytes} {s : FieldElement} {sig : SchnorrSignature}
    (hr : r.length = width) (h : ofResponse width r s = .ok sig) :
    sig.r.bytes = r ∧ sig.s.toNat = s.value := by
  obtain ⟨second, hsecond, h⟩ := bind_eq_ok.mp h
  have hbytes := Outcome.ofChecked_eq_ok.mp hsecond
  obtain ⟨hfirst, rfl⟩ := bytes_of_ofBytes (hr.trans (length_of_toBytes hbytes).symm)
    (Outcome.ofExcept_eq_ok.mp h)
  exact ⟨hfirst, toNat_of_toBytes hbytes⟩

end SchnorrSignature

/-- The challenge of a signature. -/
def schnorrChallenge [Digests] (c : Curve) (r encodedKey message : Bytes) : ZMod c.n :=
  (Digests.concat [r, encodedKey, message]).toNat

/-! ## Signing -/

namespace SigningKey

/-- The nonce, before the ordinate of its point is looked at: the digest of the secret and the
message. -/
def schnorrNonce [Digests] (key : SigningKey) (message : Bytes) : ZMod key.curve.n :=
  (Digests.concat [Bytes.bigEndian key.curve.scalarBytes (key.scalar.value % key.curve.n),
    message]).toNat

/-- The response of a nonce point with the given abscissa bytes and quadratic symbol of the
ordinate: the nonce or its opposite, and the challenge times the secret. -/
def schnorrResponse [Digests] (key : SigningKey) (message r encodedKey : Bytes) (symbol : ℤ) :
    ZMod key.curve.n :=
  (if symbol = 1 then key.schnorrNonce message else -key.schnorrNonce message) +
    schnorrChallenge key.curve r encodedKey message * key.scalar.value

/-- The digest that the signer reduces is the nonce. -/
theorem scalarElement_nonce [Digests] (key : SigningKey) [NeZero key.curve.n] (message : Bytes) :
    key.curve.scalarElement (Digests.concat [Bytes.bigEndian key.curve.scalarBytes
      (key.scalar.value % key.curve.n), message]).toNat =
        .ok (ofZMod (key.schnorrNonce message)) := by
  rw [Curve.scalarElement, ofNat_eq_ofZMod, schnorrNonce]

/-- Without a nonce there is no signature. -/
theorem signSchnorr_of_nonce_eq_zero [Digests] {key : SigningKey} [NeZero key.curve.n]
    {message : Bytes} (hk : key.schnorrNonce message = 0) :
    key.signSchnorr message = Outcome.refuse .degenerateNonce := by
  simp only [signSchnorr, toBytes_eq_mod (NeZero.pos key.curve.n), scalarElement_nonce, hk,
    isZero_ofZMod, decide_true, if_true, Outcome.liftM_checked, Outcome.ofChecked_ok, ok_bind]

variable {key : SigningKey} [Fact key.curve.p.Prime] [Fact key.curve.n.Prime]

/-- With a nonce other than zero the nonce point is finite, and what is left to do is to encode the
public key and the response. -/
theorem exists_signSchnorr_eq [Digests] (hc : key.curve.Checks) {message : Bytes}
    (hk : key.schnorrNonce message ≠ 0) :
    ∃ x y hxy, hc.multiples (key.schnorrNonce message) = .some x y hxy ∧
      key.signSchnorr message = (do
        let r := Bytes.bigEndian key.curve.fieldBytes x.val
        let encodedKey ← Outcome.ofChecked ((key.publicKey hc).toSec1 .compressed)
        SchnorrSignature.ofResponse key.curve.fieldBytes r
          (ofZMod (key.schnorrResponse message r encodedKey (quadraticChar _ y)))) := by
  have hfinite : hc.multiples (key.schnorrNonce message) ≠ 0 :=
    (hc.multiples_eq_zero_iff Fact.out).not.mpr hk
  rcases hpoint : hc.multiples (key.schnorrNonce message) with _ | ⟨x, y, hxy⟩
  · exact absurd hpoint hfinite
  refine ⟨x, y, hxy, rfl, ?_⟩
  obtain ⟨G, R, hG, hmul, hA⟩ := hc.exists_generator_mul (key.schnorrNonce message).val
  rw [ZMod.natCast_zmod_val, hpoint, Affine.ofPoint_some] at hA
  simp only [signSchnorr, toBytes_eq_mod (NeZero.pos key.curve.n), scalarElement_nonce,
    isZero_ofZMod, hk, decide_false, Bool.false_eq_true, if_false, value_ofZMod, hG, hmul, hA,
    legendre_ofZMod hc.p_ne_two, toBytes_ofZMod, verifyingKey_eq hc, Outcome.liftM_checked,
    Outcome.ofChecked_ok, ok_bind]
  -- The signer keeps the nonce or takes its opposite, and then responds with what it has picked.
  by_cases hy : quadraticChar (ZMod key.curve.p) y = 1 <;>
    simp only [hy, if_true, if_false, neg_ofZMod, Scalar.toField, Curve.scalarElement,
      ofNat_eq_ofZMod, mul_ofZMod, add_ofZMod, Outcome.ofChecked_ok, ok_bind, schnorrResponse,
      schnorrChallenge, SchnorrSignature.ofResponse, Outcome.liftM_checked]

/-- What a signature is made of: the abscissa of the nonce point and the response to it. -/
theorem signSchnorr_eq_ok [Digests] (hc : key.curve.Checks) {message : Bytes}
    {sig : SchnorrSignature} (h : key.signSchnorr message = .ok sig) :
    ∃ (x y : ZMod key.curve.p) (hxy : _) (encodedKey : Bytes),
      hc.multiples (key.schnorrNonce message) = .some x y hxy ∧
      (key.publicKey hc).toSec1 .compressed = .ok encodedKey ∧ sig.r.toNat = x.val ∧
      sig.s.toNat =
        (key.schnorrResponse message sig.r.bytes encodedKey (quadraticChar _ y)).val := by
  have hk : key.schnorrNonce message ≠ 0 := by
    intro hk
    rw [signSchnorr_of_nonce_eq_zero hk] at h
    cases h
  obtain ⟨x, y, hxy, hpoint, hsign⟩ := exists_signSchnorr_eq hc hk
  rw [hsign] at h
  obtain ⟨encodedKey, hkey, h⟩ := bind_eq_ok.mp h
  obtain ⟨hr, hs⟩ := SchnorrSignature.of_ofResponse_eq_ok (Bytes.length_bigEndian _ _) h
  refine ⟨x, y, hxy, encodedKey, hpoint, Outcome.ofChecked_eq_ok.mp hkey, ?_, ?_⟩
  · rw [Block.toNat, hr, Bytes.toNat_bigEndian_of_width_le (Curve.width_le_fieldBytes x)]
  · rw [hr]
    exact hs

end SigningKey

/-! ## Verification -/

namespace VerifyingKey

variable {c : Curve} [Fact c.p.Prime] [Fact c.n.Prime]

/-- Verification under a point of the curve gives an answer, and the answer is yes iff both numbers
are in range and the point that belongs to the response and the challenge has a square ordinate and
the signed abscissa. -/
theorem exists_verifySchnorr [Digests] (hc : c.Checks) {T : c.Point} {message encodedKey : Bytes}
    (hkey : (⟨Affine.ofPoint T, c⟩ : VerifyingKey).toSec1 .compressed = .ok encodedKey)
    (sig : SchnorrSignature) :
    ∃ valid, VerifyingKey.verifySchnorr ⟨Affine.ofPoint T, c⟩ message sig = .ok valid ∧
      (valid = true ↔ sig.r.toNat < c.p ∧ sig.s.toNat < c.n ∧
        ∃ x y h, hc.multiples sig.s.toNat +
          (-schnorrChallenge c sig.r.bytes encodedKey message).val • T = .some x y h ∧
          quadraticChar (ZMod c.p) y = 1 ∧ x.val = sig.r.toNat) := by
  by_cases hr : c.p ≤ sig.r.toNat
  · exact ⟨false, by simp [verifySchnorr, hr], by simp [hr]⟩
  by_cases hs : c.n ≤ sig.s.toNat
  · exact ⟨false, by simp [verifySchnorr, hr, hs], by simp [hs]⟩
  obtain ⟨Q, R, hQ, hmul, hA⟩ := hc.exists_jointMulGenerator T sig.s.toNat
    (-schnorrChallenge c sig.r.bytes encodedKey message).val
  rw [schnorrChallenge] at hmul
  rw [not_le] at hr hs
  -- Both numbers are in range, so the answer depends on the computed point only.
  rcases hpoint : hc.multiples sig.s.toNat +
    (-schnorrChallenge c sig.r.bytes encodedKey message).val • T with _ | ⟨x, y, h⟩
  · refine ⟨false, ?_, by simp⟩
    rw [hpoint, Affine.ofPoint] at hA
    simp only [verifySchnorr, not_le.mpr hr, not_le.mpr hs, if_false, hkey, Curve.scalarElement,
      ofNat_eq_ofZMod, neg_ofZMod, value_ofZMod, ok_bind, hQ, hmul, hA, pure_eq_ok]
  · refine ⟨decide (quadraticChar (ZMod c.p) y = 1 ∧ x.val = sig.r.toNat), ?_, ?_⟩
    · rw [hpoint, Affine.ofPoint_some] at hA
      simp only [verifySchnorr, not_le.mpr hr, not_le.mpr hs, if_false, hkey, Curve.scalarElement,
        ofNat_eq_ofZMod, neg_ofZMod, value_ofZMod, ok_bind, hQ, hmul, hA,
        legendre_ofZMod hc.p_ne_two, pure_eq_ok]
      generalize quadraticChar (ZMod c.p) y = q
      by_cases hq : q = 1 <;> simp [hq]
    · rw [decide_eq_true_eq]
      constructor
      · rintro ⟨hy, hx⟩
        exact ⟨hr, hs, x, y, h, rfl, hy, hx⟩
      · rintro ⟨-, -, _, _, _, hpoint, hyx⟩
        cases hpoint
        exact hyx

end VerifyingKey

/-! ## Signatures under their own key -/

namespace VerifyingKey

/-- The bytes of a signature are as valid as the signature. -/
theorem verifySchnorrBytes_toBytes [Digests] (key : VerifyingKey) (message : Bytes)
    (sig : SchnorrSignature) :
    key.verifySchnorrBytes message sig.toBytes = key.verifySchnorr message sig := by
  rw [verifySchnorrBytes, SchnorrSignature.ofBytes_toBytes]

end VerifyingKey

namespace SigningKey

variable {key : SigningKey} [Fact key.curve.p.Prime] [Fact key.curve.n.Prime]

/-- The verifier computes the nonce point that the signer has picked. -/
theorem exists_verified_point [Digests] (hc : key.curve.Checks) {message r encodedKey : Bytes}
    {x y : ZMod key.curve.p} {hxy : key.curve.weierstrass.Nonsingular x y}
    (hpoint : hc.multiples (key.schnorrNonce message) = .some x y hxy) (symbol : ℤ) :
    ∃ h, hc.multiples (key.schnorrResponse message r encodedKey symbol) +
      (-schnorrChallenge key.curve r encodedKey message).val •
        hc.multiples (key.scalar.value : ZMod key.curve.n) =
          .some x (if symbol = 1 then y else -y) h := by
  have hnonce (k e d : ZMod key.curve.n) :
      hc.multiples (k + e * d) + (-e).val • hc.multiples d = hc.multiples k := by
    rw [Curve.val_smul_multiples, ← map_add]
    congr 1
    ring
  rw [schnorrResponse, hnonce]
  by_cases hsymbol : symbol = 1
  · simp only [hsymbol, if_true]
    exact ⟨hxy, hpoint⟩
  · obtain ⟨hneg, hopposite⟩ := Curve.exists_neg_some hxy
    simp only [hsymbol, if_false]
    exact ⟨hneg, by rw [map_neg, hpoint, hopposite]⟩

/-- A signature is valid under its own key exactly if the ordinate of the nonce point or its
opposite is a nonzero square. -/
theorem verifySchnorr_signed [Digests] (hc : key.curve.Checks) {message : Bytes}
    {sig : SchnorrSignature} (h : key.signSchnorr message = .ok sig) :
    ∃ x y hxy, hc.multiples (key.schnorrNonce message) = .some x y hxy ∧ sig.r.toNat = x.val ∧
      (key.publicKey hc).verifySchnorr message sig =
        .ok (decide (quadraticChar (ZMod key.curve.p) y = 1 ∨
          quadraticChar (ZMod key.curve.p) y = -1 ∧ key.curve.p % 4 = 3)) := by
  obtain ⟨x, y, hxy, encodedKey, hpoint, hkey, hr, hs⟩ := signSchnorr_eq_ok hc h
  refine ⟨x, y, hxy, hpoint, hr, ?_⟩
  obtain ⟨valid, hvalid, hiff⟩ := @VerifyingKey.exists_verifySchnorr key.curve _ _ _ hc
    (hc.multiples (key.scalar.value : ZMod key.curve.n)) message encodedKey hkey sig
  obtain ⟨hpicked, hverified⟩ := @exists_verified_point key _ _ _ hc message sig.r.bytes
    encodedKey x y hxy hpoint (quadraticChar _ y)
  rw [publicKey, hvalid, Except.ok.injEq, Bool.eq_iff_iff, decide_eq_true_eq, hiff, hr, hs,
    ZMod.natCast_zmod_val, hverified]
  rw [← quadraticChar_pick_eq_one_iff]
  constructor
  · rintro ⟨-, -, _, _, _, hsome, hsquare, -⟩
    cases hsome
    exact hsquare
  · intro hsquare
    exact ⟨ZMod.val_lt x, ZMod.val_lt _, x, _, hpicked, rfl, hsquare, rfl⟩

end SigningKey

/-- A Schnorr signature verifies, whatever the digests are. On an accepted curve whose modulus is a
prime that is three modulo four and whose group order is an odd prime, every signature that a key
gives a message is valid under the verifying key, as a signature and as the bytes that write it. -/
theorem verifySchnorr_of_signSchnorr [Digests] {key : SigningKey} (hc : key.curve.Accepted)
    (hp : key.curve.p.Prime) (hp₄ : key.curve.p % 4 = 3) (hn : key.curve.n.Prime)
    (hodd : key.curve.n ≠ 2) {message : Bytes} {sig : SchnorrSignature}
    (h : key.signSchnorr message = .ok sig) :
    ∃ vk, key.verifyingKey = .ok vk ∧ vk.verifySchnorr message sig = .ok true ∧
      vk.verifySchnorrBytes message sig.toBytes = .ok true := by
  have := Fact.mk hp
  have := Fact.mk hn
  have hk := hc.checks
  obtain ⟨x, y, hxy, hpoint, -, hverify⟩ := SigningKey.verifySchnorr_signed hk h
  -- Minus one is not a square, so the ordinate is a nonzero square or its opposite is one.
  have hsquare := quadraticChar_dichotomy (hk.ordinate_ne_zero hn hodd hpoint)
  rw [decide_eq_true (hsquare.imp_right fun hy => ⟨hy, hp₄⟩)] at hverify
  refine ⟨key.publicKey hk, SigningKey.verifyingKey_eq hk, hverify, ?_⟩
  rw [VerifyingKey.verifySchnorrBytes_toBytes, hverify]

/-- The secret one of the default curve signs a message of two bytes, and the signature verifies. -/
theorem secp256k1_verifySchnorr :
    ∃ sig vk, (SigningKey.mk ⟨1⟩ Curve.secp256k1).signSchnorr [0x68, 0x69] = .ok sig ∧
      (SigningKey.mk ⟨1⟩ Curve.secp256k1).verifyingKey = .ok vk ∧
      vk.verifySchnorr [0x68, 0x69] sig = .ok true := by
  have hsigns : ((SigningKey.mk ⟨1⟩ Curve.secp256k1).signSchnorr [0x68, 0x69]).toBool := by
    decide +kernel
  obtain ⟨sig, hsig⟩ := exists_eq_ok_of_toBool hsigns
  obtain ⟨vk, hvk, hverify, -⟩ := @verifySchnorr_of_signSchnorr _ ⟨⟨1⟩, Curve.secp256k1⟩
    Curve.accepted_secp256k1 Curve.prime_p_secp256k1 Curve.p_mod_four_secp256k1
    Curve.prime_n_secp256k1 Curve.n_ne_two_secp256k1 _ _ hsig
  exact ⟨sig, vk, hsig, hvk, hverify⟩

end EllipticSignatures
