import EllipticSignatures.Signature.Schnorr
import EllipticSignatures.Proofs.Field.EndlessSearch
import EllipticSignatures.Proofs.Key.Verifying
import EllipticSignatures.Proofs.Point.AnyModulus
import EllipticSignatures.Proofs.Signature.AddressVerification

/-!
# Verification always answers

A curve is accepted without a test that its modulus or its group order is prime, and the numbers of
a signature come from outside. Verification under a key that has been read still answers yes or no
(`verification_total`): the coordinates of every point on the way are reduced, every scalar is
reduced modulo the group order, and only nonzero elements are inverted.

Verification under an address takes a square root, and modulo a number that is not prime the search
for it may visit every residue in vain. There is no other way for it to end without an answer. The
abscissas with this effect are known (`Curve.searchesInVain_iff`): there are none for a prime
modulus, and some for `Curve.carmichael`, an accepted curve.
-/

namespace EllipticSignatures

open FieldElement

/-- No base is found for the square root that would be the ordinate over the abscissa `r`. -/
def Curve.SearchesInVain (c : Curve) (r : ℕ) : Prop :=
  ∃ x square, c.baseElement r = .ok x ∧ c.rhs x = .ok square ∧
    square.sqrt = .error .endlessSearch

namespace Curve

variable {c : Curve}

/-- The search over an abscissa is the one for the square root of the cubic there. -/
theorem searchesInVain_iff_sqrt [NeZero c.p] (hc : c.Checks) {r : ℕ} {x : ZMod c.p}
    (hx : (r : ZMod c.p) = x) :
    c.SearchesInVain r ↔
      (ofZMod (x * x * x + c.weierstrass.a₄ * x + c.weierstrass.a₆)).sqrt =
        .error .endlessSearch := by
  subst hx
  constructor
  · rintro ⟨x, square, hx, hsquare, hvain⟩
    obtain rfl := Except.ok.inj ((ofNat_eq_ofZMod r).symm.trans hx)
    obtain rfl := Except.ok.inj ((rhs_ofZMod hc _).symm.trans hsquare)
    exact hvain
  · intro hvain
    exact ⟨_, _, ofNat_eq_ofZMod r, rhs_ofZMod hc _, hvain⟩

/-- The search over an abscissa is in vain iff the modulus is Euler-trivial and the value of the
cubic is nowhere a square. -/
theorem searchesInVain_iff (hc : c.Checks) (r : ℕ) :
    c.SearchesInVain r ↔
      EulerTrivial c.p ∧ NowhereSquare c.p (r ^ 3 + c.a.value * r + c.b.value) := by
  have := hc.neZero_p
  have hcubic : (r : ZMod c.p) * r * r + c.weierstrass.a₄ * r + c.weierstrass.a₆ =
      ((r ^ 3 + c.a.value * r + c.b.value : ℕ) : ZMod c.p) := by
    simp only [weierstrass]
    push_cast
    ring
  rw [searchesInVain_iff_sqrt hc rfl, hcubic]
  exact sqrt_eq_endlessSearch_iff_nowhereSquare hc.p_odd (by have := hc.three_lt_p; omega) _

/-- For a prime modulus no search is in vain. -/
theorem not_searchesInVain (hc : c.Checks) (hp : c.p.Prime) (r : ℕ) : ¬c.SearchesInVain r := by
  intro hvain
  have hlt := hc.three_lt_p
  exact ((searchesInVain_iff hc r).mp hvain).left.not_prime (by omega) hp

end Curve

/-! ## Verification under a key -/

namespace VerifyingKey

variable {c : Curve} {P : Affine}

/-- ECDSA verification gives an answer under every point with reduced coordinates. -/
theorem exists_verifyPrehash_of_inField (hc : c.Checks) (hP : P.InField c.p) (z : ℕ)
    (sig : EcdsaSignature) : ∃ valid, (⟨P, c⟩ : VerifyingKey).verifyPrehash z sig = .ok valid := by
  by_cases hrange : c.inScalarRange sig.r ∧ c.inScalarRange sig.s
  swap
  · exact ⟨false, verifyPrehash_of_out_of_range hrange z⟩
  obtain ⟨hr, hs⟩ := hrange
  have := hc.neZero_n
  have hs₀ := Curve.cast_ne_zero_of_inScalarRange hs
  -- Fermat's power of the response stands in for its inverse.
  obtain ⟨Q, R, S, hQ, hmul, hS, hfield⟩ := hc.exists_jointMulGenerator_inField hP
    (z * (sig.s : ZMod c.n) ^ (c.n - 2)).val (sig.r * (sig.s : ZMod c.n) ^ (c.n - 2)).val
  simp only [verifyPrehash, hr, hs, Bool.not_true, Bool.or_self, Bool.false_eq_true, if_false,
    Curve.scalarElement, ofNat_eq_ofZMod, invert_eq_pow hc.one_lt_n hs₀, mul_ofZMod, value_ofZMod,
    hQ, hmul, hS, ok_bind, pure_eq_ok]
  cases S with
  | infinity => exact ⟨false, rfl⟩
  | point x y =>
    obtain ⟨x, rfl⟩ := hfield.left.exists_ofZMod
    simp only [reduceInto_ofZMod, ok_bind]
    exact ⟨_, rfl⟩

/-- Schnorr verification gives an answer under every finite point with reduced coordinates. -/
theorem exists_verifySchnorr_of_inField [Digests] (hc : c.Checks) (hP : P.InField c.p)
    (hfinite : P ≠ .infinity) (message : Bytes) (sig : SchnorrSignature) :
    ∃ valid, (⟨P, c⟩ : VerifyingKey).verifySchnorr message sig = .ok valid := by
  have := hc.neZero_p
  have := hc.neZero_n
  obtain ⟨encodedKey, hkey⟩ := exists_toSec1 hP hfinite .compressed
  unfold verifySchnorr
  by_cases hr : c.p ≤ sig.r.toNat
  · exact ⟨false, if_pos hr⟩
  by_cases hs : c.n ≤ sig.s.toNat
  · exact ⟨false, by rw [if_neg hr, if_pos hs, pure_eq_ok]⟩
  -- The challenge is a residue, whatever the digest is.
  set challenge := (Digests.concat [sig.r.bytes, encodedKey, message]).toNat with hchallenge
  obtain ⟨Q, R, S, hQ, hmul, hS, hfield⟩ :=
    hc.exists_jointMulGenerator_inField hP sig.s.toNat (-(challenge : ZMod c.n)).val
  simp only [hr, hs, if_false, hkey, ← hchallenge, Curve.scalarElement, ofNat_eq_ofZMod,
    neg_ofZMod, value_ofZMod, hQ, hmul, hS, ok_bind, pure_eq_ok]
  cases S with
  | infinity => exact ⟨false, rfl⟩
  | point x y =>
    obtain ⟨y, rfl⟩ := hfield.right.exists_ofZMod
    obtain ⟨symbol, hsymbol⟩ := exists_legendre y
    simp only [hsymbol, ok_bind]
    by_cases hsquare : symbol ≠ 1
    · exact ⟨false, if_pos hsquare⟩
    · exact ⟨_, if_neg hsquare⟩

/-- Bytes that are no signature are rejected. -/
theorem exists_verifySchnorrBytes [Digests] {key : VerifyingKey} {message : Bytes}
    (h : ∀ sig, ∃ valid, key.verifySchnorr message sig = .ok valid) (bytes : Bytes) :
    ∃ valid, key.verifySchnorrBytes message bytes = .ok valid := by
  unfold verifySchnorrBytes
  cases SchnorrSignature.ofBytes bytes with
  | error cause => exact ⟨false, rfl⟩
  | ok sig => exact h sig

end VerifyingKey

/-! ## Verification under an address -/

namespace MessageSignature

variable {c : Curve}

/-- Recovery from a pair of reduced coordinates gives nothing or a finite point with reduced
coordinates, for all multipliers. -/
theorem exists_recoverFrom_inField (hc : c.Checks) (u₁ u₂ : ℕ) {x y : FieldElement}
    (hx : x.InField c.p) (hy : y.InField c.p) :
    ∃ found, recoverFrom c u₁ u₂ x y = .ok found ∧
      ∀ Q ∈ found.toList, Q ≠ .infinity ∧ Q.InField c.p := by
  obtain ⟨Q, R, S, hQ, hmul, hS, hfield⟩ :=
    hc.exists_jointMulGenerator_inField (A := .point x y) ⟨hx, hy⟩ u₁ u₂
  simp only [recoverFrom, hQ, hmul, hS, ok_bind, pure_eq_ok]
  cases S with
  | infinity => exact ⟨none, rfl, by simp⟩
  | point u v =>
    refine ⟨some (.point u v), rfl, ?_⟩
    intro Q hQ
    obtain rfl : Q = .point u v := by simpa using hQ
    exact ⟨Affine.noConfusion, hfield⟩

/-- A search in vain is the end of recovery for every pair of numbers in range. -/
theorem recoverCandidates_of_searchesInVain {r s : ℕ}
    (hrange : c.inScalarRange r ∧ c.inScalarRange s ∧ r < c.p) (h : c.SearchesInVain r) (z : ℕ) :
    recoverCandidates c ⟨r, s⟩ z = .error .endlessSearch := by
  obtain ⟨x, square, hx, hsquare, hvain⟩ := h
  rw [recoverCandidates, if_neg (refused_iff.not.mpr (not_not.mpr hrange))]
  simp only [hx, hsquare, hvain, ok_bind, error_bind]

/-- Recovery gives finite points with reduced coordinates, or the search for the ordinate is in
vain. -/
theorem recoverCandidates_cases (hc : c.Checks) (sig : EcdsaSignature) (z : ℕ) :
    (recoverCandidates c sig z = .error .endlessSearch ∧ c.SearchesInVain sig.r) ∨
      ∃ candidates, recoverCandidates c sig z = .ok candidates ∧
        ∀ Q ∈ candidates, Q ≠ .infinity ∧ Q.InField c.p := by
  obtain ⟨r, s⟩ := sig
  by_cases hrange : c.inScalarRange r ∧ c.inScalarRange s ∧ r < c.p
  swap
  · exact .inr ⟨[], recoverCandidates_of_out_of_range hrange z, by simp⟩
  have := hc.neZero_p
  have := hc.neZero_n
  have hr₀ := Curve.cast_ne_zero_of_inScalarRange hrange.left
  set x : ZMod c.p := (r : ZMod c.p) with hx
  set square := x * x * x + c.weierstrass.a₄ * x + c.weierstrass.a₆ with hsquare
  have hbase : c.baseElement r = .ok (ofZMod x) := ofNat_eq_ofZMod r
  have hrhs : c.rhs (ofZMod x) = .ok (ofZMod square) := Curve.rhs_ofZMod hc x
  obtain hvain | ⟨root, hroot, hfield⟩ := sqrt_cases square
  · have hsearch : c.SearchesInVain r := ⟨_, _, hbase, hrhs, hvain⟩
    exact .inl ⟨recoverCandidates_of_searchesInVain hrange hsearch z, hsearch⟩
  -- The guard is passed and the square root is known, so every other step has a value.
  rw [recoverCandidates, if_neg (refused_iff.not.mpr (not_not.mpr hrange))]
  simp only [hbase, hrhs, hroot, Curve.scalarElement, ofNat_eq_ofZMod,
    invert_eq_pow hc.one_lt_n hr₀, neg_ofZMod, mul_ofZMod, value_ofZMod, ok_bind, pure_eq_ok]
  cases root with
  | none => exact .inr ⟨[], rfl, by simp⟩
  | some y =>
    obtain ⟨y, rfl⟩ := (hfield y rfl).exists_ofZMod
    -- Both ordinates are tried with the same multipliers.
    have hfrom (v : ZMod c.p) := exists_recoverFrom_inField hc
      (-(z : ZMod c.n) * (r : ZMod c.n) ^ (c.n - 2)).val
      ((s : ZMod c.n) * (r : ZMod c.n) ^ (c.n - 2)).val (inField_ofZMod x) (inField_ofZMod v)
    obtain ⟨first, hfirst, hfirstfield⟩ := hfrom y
    obtain ⟨second, hsecond, hsecondfield⟩ := hfrom (-y)
    refine .inr ⟨first.toList ++ second.toList, ?_, ?_⟩
    · simp only [neg_ofZMod, ok_bind, hfirst, hsecond]
    · intro Q hQ
      exact (List.mem_append.mp hQ).elim (hfirstfield Q) (hsecondfield Q)

end MessageSignature

namespace SignedMessage

variable {c : Curve}

/-- Verification under an address gives an answer, or the search for the ordinate over the first
number of the signature is in vain. -/
theorem verifyOn_cases [Digests] (hc : c.Checks) (address : String) (message : Bytes)
    (signature : String) :
    (∃ valid, verifyOn c address message signature = .ok valid) ∨
      (verifyOn c address message signature = .error .endlessSearch ∧
        ∃ sig, MessageSignature.ofBase64 signature = .ok sig ∧ c.SearchesInVain sig.r.toNat) := by
  unfold verifyOn
  cases Address.ofText address with
  | error cause => exact .inl ⟨false, rfl⟩
  | ok parsed =>
    cases MessageSignature.ofBase64 signature with
    | error cause => exact .inl ⟨false, rfl⟩
    | ok sig =>
      have := hc.neZero_p
      obtain ⟨hvain, hsearch⟩ | ⟨candidates, hcandidates, hfield⟩ :=
        MessageSignature.recoverCandidates_cases hc sig.toEcdsa (digest message).toNat
      · exact .inr ⟨by simp only [hvain, error_bind], sig, rfl, hsearch⟩
      · obtain ⟨valid, hvalid, -⟩ :=
          MessageSignature.exists_anyHasAddress_of_inField sig.format parsed hfield
        exact .inl ⟨valid, by simp only [hcandidates, ok_bind, hvalid]⟩

end SignedMessage

/-- Verification always answers. On every accepted curve, with prime modulus and group order or
not, all forms of verification under a key that has been read give an answer, for all numbers,
messages, signatures and bytes. Verification under an address gives an answer for all texts, unless
the search for the ordinate over the first number of the signature is in vain, which is never the
case for a prime modulus. -/
theorem verification_total [Digests] {c : Curve} (hc : c.Accepted) :
    (∀ vk : VerifyingKey, vk.Imported → vk.curve = c →
      (∀ z sig, ∃ valid, vk.verifyPrehash z sig = .ok valid) ∧
      (∀ message sig, ∃ valid, vk.verifyEcdsa message sig = .ok valid) ∧
      (∀ message sig, ∃ valid, vk.verifySchnorr message sig = .ok valid) ∧
      (∀ message bytes, ∃ valid, vk.verifySchnorrBytes message bytes = .ok valid) ∧
      ∀ message sig, ∃ valid, vk.verifyMessage message sig = .ok valid) ∧
    (∀ address message signature,
      (∃ valid, SignedMessage.verifyOn c address message signature = .ok valid) ∨
      (SignedMessage.verifyOn c address message signature = .error .endlessSearch ∧
        ∃ sig, MessageSignature.ofBase64 signature = .ok sig ∧
          c.SearchesInVain sig.r.toNat)) ∧
    (c.p.Prime → ∀ r, ¬c.SearchesInVain r) := by
  have hk := hc.checks
  refine ⟨?_, SignedMessage.verifyOn_cases hk, Curve.not_searchesInVain hk⟩
  rintro ⟨P, _⟩ himported rfl
  obtain ⟨hfinite, hon⟩ := himported.finite_and_onCurve hc
  have hecdsa := VerifyingKey.exists_verifyPrehash_of_inField hk hon.inField
  have hschnorr := VerifyingKey.exists_verifySchnorr_of_inField hk hon.inField hfinite
  refine ⟨hecdsa, ?_, hschnorr, ?_, ?_⟩
  · intro message sig
    exact hecdsa _ sig
  · intro message bytes
    exact VerifyingKey.exists_verifySchnorrBytes (hschnorr message) bytes
  · intro message sig
    exact hecdsa _ sig.toEcdsa

/-- Neither number of the curve is prime, and verification answers: to a pair of numbers that share
a factor with the group order, to 64 bytes, and to two texts. -/
theorem carmichael_verification :
    ¬Curve.carmichael.p.Prime ∧ ¬Curve.carmichael.n.Prime ∧
      (∃ vk, VerifyingKey.ofAffine (.point ⟨7, 1729⟩ ⟨257, 1729⟩) Curve.carmichael = .ok vk ∧
        (∃ valid, vk.verifyPrehash 5 ⟨3, 6⟩ = .ok valid) ∧
        ∃ valid, vk.verifySchnorrBytes [0x68, 0x69] (List.replicate 64 0) = .ok valid) ∧
      ∃ valid, SignedMessage.verifyOn Curve.carmichael (Address.ofSec1 [0x02, 0x07, 0x01]).toText
        [0x68, 0x69] (MessageSignature.mk .compressed 0 (Block.ofNat 32 1)
          (Block.ofNat 32 5)).toBase64 = .ok valid := by
  obtain ⟨hkeys, htexts, -⟩ := verification_total Curve.accepted_carmichael
  refine ⟨by norm_num [Curve.carmichael], by norm_num [Curve.carmichael], ?_, ?_⟩
  · have hkey : VerifyingKey.ofAffine (.point ⟨7, 1729⟩ ⟨257, 1729⟩) Curve.carmichael =
        .ok ⟨.point ⟨7, 1729⟩ ⟨257, 1729⟩, Curve.carmichael⟩ := by
      rfl
    have hreduced : (Affine.point ⟨7, 1729⟩ ⟨257, 1729⟩).Reduced := ⟨by decide, by decide⟩
    obtain ⟨hprehash, -, -, hbytes, -⟩ := hkeys _ (.affine hreduced hkey) rfl
    exact ⟨_, hkey, hprehash 5 ⟨3, 6⟩, hbytes _ _⟩
  · -- The search over the abscissa one comes to an end.
    refine (htexts _ _ _).resolve_right ?_
    rintro ⟨-, sig, hsig, x, square, hx, hsquare, hvain⟩
    rw [MessageSignature.ofBase64_toBase64, Except.ok.injEq] at hsig
    subst hsig
    obtain rfl : (⟨1, 1729⟩ : FieldElement) = x := Except.ok.inj hx
    obtain rfl : (⟨5, 1729⟩ : FieldElement) = square := Except.ok.inj hsquare
    have hends : (FieldElement.mk 5 1729).sqrt ≠ .error .endlessSearch := by
      decide
    exact hends hvain

/-- Over the abscissa three the cubic is 31, which is no square modulo 7, 13 and 19, so verification
searches without end for a signature whose first number is three. -/
theorem carmichael_verifyOn_endless :
    Curve.carmichael.SearchesInVain 3 ∧
      SignedMessage.verifyOn Curve.carmichael (Address.ofSec1 [0x02, 0x07, 0x01]).toText
        [0x68, 0x69] (MessageSignature.mk .compressed 0 (Block.ofNat 32 3)
          (Block.ofNat 32 1)).toBase64 = .error .endlessSearch := by
  have hnumbers : (MessageSignature.mk .compressed 0 (Block.ofNat 32 3)
      (Block.ofNat 32 1)).toEcdsa = ⟨3, 1⟩ := by
    decide
  have hsearch : Curve.carmichael.SearchesInVain 3 := by
    rw [Curve.searchesInVain_iff Curve.accepted_carmichael.checks]
    exact ⟨eulerTrivial_1729, nowhereSquare_1729_iff.mpr (by decide)⟩
  refine ⟨hsearch, ?_⟩
  rw [SignedMessage.verifyOn_toText, hnumbers, MessageSignature.recoverCandidates_of_searchesInVain
    (by decide) hsearch, error_bind]

end EllipticSignatures
