import EllipticSignatures.Signature.Ecdsa
import EllipticSignatures.Proofs.Key.Signing
import EllipticSignatures.Proofs.Random.Sampling

/-!
# ECDSA verification accepts what signing produces

Signing and verification on an accepted curve of prime modulus and prime group order are first read
as computations with residues and points of the elliptic curve. A signature `(r, s)` of `z` under
the secret `d` is then accepted exactly if the nonce `(z + r d) / s` has a point of abscissa `r`
(`SigningKey.TellsNonce`), and so exactly if this nonce produces it.
-/

namespace EllipticSignatures

open FieldElement

/-! ## Signing -/

namespace SigningKey

variable {key : SigningKey} [Fact key.curve.p.Prime] [Fact key.curve.n.Prime]

/-- The response to `r` for the residue `z` under the nonce `k`. -/
def response (key : SigningKey) (z r k : ZMod key.curve.n) : ZMod key.curve.n :=
  k⁻¹ * (z + r * key.scalar.value)

/-- A nonce whose point is the identity gives no signature. -/
theorem signWithNonce_of_eq_zero (hc : key.curve.Checks) (z : ZMod key.curve.n) {k : Scalar}
    (hR : hc.multiples k.value = 0) : key.signWithNonce (ofZMod z) k = .ok none := by
  obtain ⟨G, R, hG, hmul, hA⟩ := hc.exists_generator_mul k.value
  rw [hR, Affine.ofPoint_zero] at hA
  simp [signWithNonce, hG, hmul, hA]

/-- The signature with a nonce that is not zero. -/
theorem signWithNonce_of_eq_some (hc : key.curve.Checks) (z : ZMod key.curve.n) {k : Scalar}
    (hk : (k.value : ZMod key.curve.n) ≠ 0) {x y : ZMod key.curve.p}
    {h : key.curve.weierstrass.Nonsingular x y} (hR : hc.multiples k.value = .some x y h) :
    let r : ZMod key.curve.n := x.val
    let s := key.response z r k.value
    key.signWithNonce (ofZMod z) k =
      .ok (if r = 0 ∨ s = 0 then none else some ⟨⟨r.val, s.val⟩, (ofZMod y).isOdd⟩) := by
  intro r s
  obtain ⟨G, R, hG, hmul, hA⟩ := hc.exists_generator_mul k.value
  rw [hR, Affine.ofPoint_some] at hA
  have hsign : key.signWithNonce (ofZMod z) k =
      if r = 0 then .ok none else if s = 0 then .ok none
      else .ok (some ⟨⟨r.val, s.val⟩, (ofZMod y).isOdd⟩) := by
    simp only [signWithNonce, Outcome.liftM_checked, Outcome.ofChecked_ok, ok_bind, hG, hmul, hA,
      reduceInto_ofZMod, isZero_ofZMod, decide_eq_true_eq, Scalar.toField, Curve.scalarElement,
      ofNat_eq_ofZMod, invert_ofZMod hk, Outcome.mapRefusal_ok, mul_ofZMod, add_ofZMod,
      value_ofZMod, pure_eq_ok]
    rfl
  rw [hsign]
  by_cases hr : r = 0 <;> by_cases hs : s = 0 <;> simp [hr, hs]

/-- Signing with a nonce that is not zero gives a signature iff the nonce point is finite and
neither number is zero. -/
theorem signWithNonce_eq_some_iff (hc : key.curve.Checks) {z : ZMod key.curve.n} {k : Scalar}
    (hk : (k.value : ZMod key.curve.n) ≠ 0) {signed : RecoverableSignature} :
    key.signWithNonce (ofZMod z) k = .ok (some signed) ↔
      ∃ x y h, hc.multiples k.value = .some x y h ∧ (x.val : ZMod key.curve.n) ≠ 0 ∧
        key.response z x.val k.value ≠ 0 ∧
        signed = ⟨⟨(x.val : ZMod key.curve.n).val, (key.response z x.val k.value).val⟩,
          (ofZMod y).isOdd⟩ := by
  rcases hR : hc.multiples k.value with _ | ⟨x, y, h⟩
  -- A nonce point at infinity is refused, and it has no coordinates.
  · rw [signWithNonce_of_eq_zero hc z hR]
    simp
  · rw [signWithNonce_of_eq_some hc z hk hR, Except.ok.injEq]
    constructor
    · intro hsigned
      by_cases hdeg : (x.val : ZMod key.curve.n) = 0 ∨ key.response z x.val k.value = 0
      · simp only [hdeg, if_true, reduceCtorEq] at hsigned
      · rw [if_neg hdeg, Option.some.injEq] at hsigned
        rw [not_or] at hdeg
        exact ⟨x, y, h, rfl, hdeg.left, hdeg.right, hsigned.symm⟩
    · rintro ⟨_, _, _, hpoint, hr, hs, rfl⟩
      cases hpoint
      rw [if_neg (not_or.mpr ⟨hr, hs⟩)]

omit [Fact key.curve.p.Prime] in
/-- A signature from a random nonce is a signature from some nonce in range. -/
theorem exists_nonce_of_signPrehash {z : ℕ} {signed : RecoverableSignature}
    {source source' : Source}
    (h : (key.signPrehash z).run source = (.ok signed, source')) :
    ∃ k : Scalar, key.curve.inScalarRange k.value ∧
      key.signWithNonce (ofZMod (z : ZMod key.curve.n)) k = .ok (some signed) := by
  obtain ⟨residue, middle, hlift, hretry⟩ := Draw.run_bind_eq_ok.mp h
  obtain ⟨hresidue, -⟩ := Draw.run_lift_eq_ok.mp hlift
  rw [Curve.scalarElement, ofNat_eq_ofZMod, Outcome.liftM_checked, Outcome.ofChecked_ok,
    Except.ok.injEq] at hresidue
  obtain ⟨start, hstep⟩ := Draw.run_retry_eq_ok hretry
  obtain ⟨k, middle, hk, hlift⟩ := Draw.run_bind_eq_ok.mp hstep
  obtain ⟨hsign, -⟩ := Draw.run_lift_eq_ok.mp hlift
  exact ⟨k, Scalar.inScalarRange_of_random hk, hresidue ▸ hsign⟩

end SigningKey

/-! ## Verification -/

namespace VerifyingKey

/-- A number out of range is refused before anything is computed. -/
theorem verifyPrehash_of_out_of_range {key : VerifyingKey} {sig : EcdsaSignature}
    (h : ¬(key.curve.inScalarRange sig.r ∧ key.curve.inScalarRange sig.s)) (z : ℕ) :
    key.verifyPrehash z sig = .ok false := by
  rw [not_and_or, Bool.not_eq_true, Bool.not_eq_true] at h
  rw [verifyPrehash]
  rcases h with h | h <;> simp [h]

variable {c : Curve} [Fact c.p.Prime] [Fact c.n.Prime]

/-- Verification under a point of the curve gives an answer, and the answer is yes iff both numbers
are in range and `r` is the abscissa of `(z / s) G + (r / s) T`. -/
theorem exists_verifyPrehash (hc : c.Checks) (T : c.Point) (z r s : ℕ) :
    ∃ valid, VerifyingKey.verifyPrehash ⟨Affine.ofPoint T, c⟩ z ⟨r, s⟩ = .ok valid ∧
      (valid = true ↔ c.inScalarRange r ∧ c.inScalarRange s ∧
        ∃ x y h, hc.multiples (z * (s : ZMod c.n)⁻¹) +
          (r * (s : ZMod c.n)⁻¹ : ZMod c.n).val • T = .some x y h ∧
          (x.val : ZMod c.n) = r) := by
  by_cases hrange : c.inScalarRange r ∧ c.inScalarRange s
  swap
  · refine ⟨false, verifyPrehash_of_out_of_range hrange z, ?_⟩
    constructor
    · intro h
      exact absurd h Bool.false_ne_true
    · intro h
      exact absurd ⟨h.left, h.right.left⟩ hrange
  obtain ⟨hr, hs⟩ := hrange
  have hs₀ := Curve.cast_ne_zero_of_inScalarRange hs
  obtain ⟨Q, R, hQ, hmul, hA⟩ := hc.exists_jointMulGenerator T
    (z * (s : ZMod c.n)⁻¹ : ZMod c.n).val
    (r * (s : ZMod c.n)⁻¹ : ZMod c.n).val
  rw [ZMod.natCast_zmod_val] at hA
  -- Both numbers are in range, so the answer depends on the computed point only.
  rcases hpoint : hc.multiples (z * (s : ZMod c.n)⁻¹) +
    (r * (s : ZMod c.n)⁻¹ : ZMod c.n).val • T with _ | ⟨x, y, h⟩
  · refine ⟨false, ?_, by simp⟩
    rw [hpoint, Affine.ofPoint] at hA
    simp only [verifyPrehash, hr, hs, Curve.scalarElement, ofNat_eq_ofZMod, ok_bind,
      invert_ofZMod hs₀, mul_ofZMod, value_ofZMod, hQ, hmul, hA, Bool.not_true, Bool.or_self,
      Bool.false_eq_true, if_false, pure_eq_ok]
  · have hval : (x.val : ZMod c.n).val = r ↔ (x.val : ZMod c.n) = r := by
      constructor
      · intro h
        rw [← h, ZMod.natCast_zmod_val]
      · intro h
        rw [h, ZMod.val_natCast_of_lt (Curve.inScalarRange_iff.mp hr).right]
    refine ⟨(x.val : ZMod c.n).val = r, ?_, ?_⟩
    · rw [hpoint, Affine.ofPoint_some] at hA
      simp only [verifyPrehash, hr, hs, Curve.scalarElement, ofNat_eq_ofZMod, ok_bind,
        invert_ofZMod hs₀, mul_ofZMod, value_ofZMod, hQ, hmul, hA, Bool.not_true, Bool.or_self,
        Bool.false_eq_true, if_false, reduceInto_ofZMod, pure_eq_ok]
    · rw [decide_eq_true_eq, hval]
      constructor
      · intro hx
        exact ⟨hr, hs, x, y, h, rfl, hx⟩
      · rintro ⟨-, -, _, _, _, hpoint, hx⟩
        cases hpoint
        exact hx

end VerifyingKey

/-! ## The signatures that verify -/

namespace SigningKey

variable {key : SigningKey}

/-- Both numbers are in range, and the nonce that belongs to the response has a point with the
signed abscissa whose ordinate has the parity that comes along. -/
structure TellsNonce (key : SigningKey) [Fact key.curve.p.Prime] (hc : key.curve.Checks)
    (z : ZMod key.curve.n) (signed : RecoverableSignature) : Prop where
  /-- The first number is in range. -/
  r_range : key.curve.inScalarRange signed.signature.r
  /-- The response is in range. -/
  s_range : key.curve.inScalarRange signed.signature.s
  /-- The nonce point. -/
  point : ∃ x y h, hc.multiples (key.response z signed.signature.r signed.signature.s) =
    .some x y h ∧ (x.val : ZMod key.curve.n) = signed.signature.r ∧
    (ofZMod y).isOdd = signed.oddNonce

variable [Fact key.curve.n.Prime]

/-- The nonce and the response determine each other by the same formula. -/
theorem response_eq_iff {z r s k : ZMod key.curve.n} (hk : k ≠ 0) (hs : s ≠ 0) :
    key.response z r k = s ↔ key.response z r s = k := by
  rw [response, response, inv_mul_eq_iff_eq_mul₀ hk, inv_mul_eq_iff_eq_mul₀ hs, mul_comm k]

/-- A nonzero residue is the scalar of a nonce in range. -/
private theorem inScalarRange_val {k : ZMod key.curve.n} (hk : k ≠ 0) :
    key.curve.inScalarRange k.val := by
  rw [Curve.inScalarRange_iff, Nat.one_le_iff_ne_zero, Ne, ZMod.val_eq_zero]
  exact ⟨hk, ZMod.val_lt k⟩

variable [Fact key.curve.p.Prime]

/-- Both numbers of a signature are in range. -/
theorem inScalarRange_of_signWithNonce (hc : key.curve.Checks) {z : ZMod key.curve.n} {k : Scalar}
    (hk : key.curve.inScalarRange k.value) {signed : RecoverableSignature}
    (h : key.signWithNonce (ofZMod z) k = .ok (some signed)) :
    key.curve.inScalarRange signed.signature.r ∧ key.curve.inScalarRange signed.signature.s := by
  have hk₀ := Curve.cast_ne_zero_of_inScalarRange hk
  obtain ⟨x, y, -, -, hr, hs, rfl⟩ := (signWithNonce_eq_some_iff hc hk₀).mp h
  exact ⟨inScalarRange_val hr, inScalarRange_val hs⟩

/-- The two numbers of a signature determine the nonce. -/
theorem eq_of_signWithNonce (hc : key.curve.Checks) {z : ZMod key.curve.n} {k k' : Scalar}
    (hk : key.curve.inScalarRange k.value) (hk' : key.curve.inScalarRange k'.value)
    {signed signed' : RecoverableSignature}
    (h : key.signWithNonce (ofZMod z) k = .ok (some signed))
    (h' : key.signWithNonce (ofZMod z) k' = .ok (some signed'))
    (hsame : signed.signature = signed'.signature) : k = k' := by
  have hk₀ := Curve.cast_ne_zero_of_inScalarRange hk
  have hk₀' := Curve.cast_ne_zero_of_inScalarRange hk'
  obtain ⟨x, y, -, -, -, hs, rfl⟩ := (signWithNonce_eq_some_iff hc hk₀).mp h
  obtain ⟨x', y', -, -, -, hs', rfl⟩ := (signWithNonce_eq_some_iff hc hk₀').mp h'
  obtain ⟨hr, hresponse⟩ := EcdsaSignature.mk.inj hsame
  rw [(ZMod.val_injective _).eq_iff] at hr hresponse
  rw [hr] at hs hresponse
  -- Both nonces are the one that the response belongs to.
  have hcast : (k.value : ZMod key.curve.n) = k'.value := by
    rw [← (response_eq_iff hk₀ hs).mp rfl, ← (response_eq_iff hk₀' hs').mp rfl, hresponse]
  rw [ZMod.natCast_eq_natCast_iff', Nat.mod_eq_of_lt (Curve.inScalarRange_iff.mp hk).right,
    Nat.mod_eq_of_lt (Curve.inScalarRange_iff.mp hk').right] at hcast
  exact congrArg Scalar.mk hcast

/-- A signature tells the nonce that it was made with. -/
theorem tellsNonce_of_signWithNonce (hc : key.curve.Checks) {z : ZMod key.curve.n} {k : Scalar}
    (hk : key.curve.inScalarRange k.value) {signed : RecoverableSignature}
    (h : key.signWithNonce (ofZMod z) k = .ok (some signed)) : key.TellsNonce hc z signed := by
  have hk₀ := Curve.cast_ne_zero_of_inScalarRange hk
  obtain ⟨hr, hs⟩ := inScalarRange_of_signWithNonce hc hk h
  obtain ⟨x, y, hxy, hpoint, -, hs₀, rfl⟩ := (signWithNonce_eq_some_iff hc hk₀).mp h
  refine ⟨hr, hs, x, y, hxy, ?_, ?_, rfl⟩
  · rw [ZMod.natCast_zmod_val, ZMod.natCast_zmod_val, (response_eq_iff hk₀ hs₀).mp rfl, hpoint]
  · rw [ZMod.natCast_zmod_val]

/-- A pair of numbers that tells a nonce is made with that nonce. -/
theorem TellsNonce.exists_signWithNonce {hc : key.curve.Checks} {z : ZMod key.curve.n}
    {signed : RecoverableSignature} (h : key.TellsNonce hc z signed) :
    ∃ k : Scalar, key.curve.inScalarRange k.value ∧
      key.signWithNonce (ofZMod z) k = .ok (some signed) := by
  obtain ⟨⟨r, s⟩, oddNonce⟩ := signed
  obtain ⟨hr, hs, x, y, hxy, hpoint, hx, rfl⟩ := h
  dsimp only at hr hs hpoint hx
  have hs₀ := Curve.cast_ne_zero_of_inScalarRange hs
  -- The nonce is `(z + r d) / s`. It is not zero, since its point is finite.
  set k : ZMod key.curve.n := key.response z r s with hk
  have hk₀ : k ≠ 0 := by
    intro hk₀
    rw [hk₀, map_zero] at hpoint
    exact WeierstrassCurve.Affine.Point.some_ne_zero hxy hpoint.symm
  have hresponse : key.response z r k = s := (response_eq_iff hk₀ hs₀).mpr hk.symm
  refine ⟨⟨k.val⟩, inScalarRange_val hk₀, (signWithNonce_eq_some_iff hc ?_).mpr ⟨x, y, hxy, ?_⟩⟩
  · rwa [ZMod.natCast_zmod_val]
  · rw [ZMod.natCast_zmod_val, hx, hresponse, ZMod.val_natCast_of_lt, ZMod.val_natCast_of_lt]
    · exact ⟨hpoint, Curve.cast_ne_zero_of_inScalarRange hr, hs₀, rfl⟩
    · exact (Curve.inScalarRange_iff.mp hs).right
    · exact (Curve.inScalarRange_iff.mp hr).right

/-- The point that verification under the own public key computes is the point of the nonce that
the response belongs to. -/
theorem verified_point_eq (hc : key.curve.Checks) (z r s : ZMod key.curve.n) :
    hc.multiples (z * s⁻¹) + (r * s⁻¹).val • hc.multiples (key.scalar.value : ZMod key.curve.n) =
      hc.multiples (key.response z r s) := by
  rw [Curve.val_smul_multiples, ← map_add, response]
  congr 1
  ring

/-- Verification under the own public key gives an answer, and the answer is yes iff the pair of
numbers tells a nonce. -/
theorem exists_verifyPrehash_tellsNonce (hc : key.curve.Checks) (z : ℕ) (sig : EcdsaSignature) :
    ∃ valid, (key.publicKey hc).verifyPrehash z sig = .ok valid ∧
      (valid = true ↔ ∃ oddNonce, key.TellsNonce hc z ⟨sig, oddNonce⟩) := by
  obtain ⟨r, s⟩ := sig
  obtain ⟨valid, hvalid, hiff⟩ :=
    VerifyingKey.exists_verifyPrehash hc (hc.multiples (key.scalar.value : ZMod key.curve.n)) z r s
  refine ⟨valid, hvalid, hiff.trans ?_⟩
  rw [verified_point_eq]
  constructor
  · rintro ⟨hr, hs, x, y, h, hpoint, hx⟩
    exact ⟨_, hr, hs, x, y, h, hpoint, hx, rfl⟩
  · rintro ⟨oddNonce, hr, hs, x, y, h, hpoint, hx, -⟩
    exact ⟨hr, hs, x, y, h, hpoint, hx⟩

/-- Verification under the own public key gives an answer, and the answer is yes iff some nonce in
range produces the pair of numbers. -/
theorem exists_verifyPrehash_own (hc : key.curve.Checks) (z r s : ℕ) :
    ∃ valid, (key.publicKey hc).verifyPrehash z ⟨r, s⟩ = .ok valid ∧
      (valid = true ↔ ∃ k : Scalar, key.curve.inScalarRange k.value ∧ ∃ oddNonce,
        key.signWithNonce (ofZMod (z : ZMod key.curve.n)) k =
          .ok (some ⟨⟨r, s⟩, oddNonce⟩)) := by
  obtain ⟨valid, hvalid, hiff⟩ := exists_verifyPrehash_tellsNonce hc z ⟨r, s⟩
  refine ⟨valid, hvalid, hiff.trans ⟨?_, ?_⟩⟩
  · rintro ⟨oddNonce, htells⟩
    obtain ⟨k, hrange, hsign⟩ := htells.exists_signWithNonce
    exact ⟨k, hrange, oddNonce, hsign⟩
  · rintro ⟨k, hrange, oddNonce, hsign⟩
    exact ⟨oddNonce, tellsNonce_of_signWithNonce hc hrange hsign⟩

end SigningKey

/-- ECDSA verification accepts exactly what signing can produce. On an accepted curve of prime
modulus and group order, the verifying key of a signing key exists, it answers for every number and
every pair of numbers, it accepts a pair iff some nonce in range makes the signing key produce it,
and every signature drawn from a source has both numbers in range and is accepted. -/
theorem verifyPrehash_iff_signWithNonce {key : SigningKey} (hc : key.curve.Accepted)
    (hp : key.curve.p.Prime) (hn : key.curve.n.Prime) :
    ∃ vk, key.verifyingKey = .ok vk ∧
      (∀ z r s, ∃ valid, vk.verifyPrehash z ⟨r, s⟩ = .ok valid) ∧
      (∀ z r s, vk.verifyPrehash z ⟨r, s⟩ = .ok true ↔
        ∃ k, 1 ≤ k ∧ k < key.curve.n ∧ ∃ oddNonce,
          key.signWithNonce ⟨z % key.curve.n, key.curve.n⟩ ⟨k⟩ =
            .ok (some ⟨⟨r, s⟩, oddNonce⟩)) ∧
      ∀ z source signed source', (key.signPrehash z).run source = (.ok signed, source') →
        (1 ≤ signed.signature.r ∧ signed.signature.r < key.curve.n) ∧
        (1 ≤ signed.signature.s ∧ signed.signature.s < key.curve.n) ∧
        vk.verifyPrehash z signed.signature = .ok true := by
  have := Fact.mk hp
  have := Fact.mk hn
  have hk := hc.checks
  refine ⟨key.publicKey hk, SigningKey.verifyingKey_eq hk, ?_, ?_, ?_⟩
  · intro z r s
    obtain ⟨valid, hvalid, -⟩ := SigningKey.exists_verifyPrehash_own hk z r s
    exact ⟨valid, hvalid⟩
  · intro z r s
    obtain ⟨valid, hvalid, hiff⟩ := SigningKey.exists_verifyPrehash_own hk z r s
    rw [hvalid, Except.ok.injEq, hiff, ofZMod, ZMod.val_natCast]
    constructor
    · rintro ⟨⟨k⟩, hrange, oddNonce, hsign⟩
      obtain ⟨h₁, hlt⟩ := Curve.inScalarRange_iff.mp hrange
      exact ⟨k, h₁, hlt, oddNonce, hsign⟩
    · rintro ⟨k, h₁, hlt, oddNonce, hsign⟩
      exact ⟨⟨k⟩, Curve.inScalarRange_iff.mpr ⟨h₁, hlt⟩, oddNonce, hsign⟩
  · intro z source signed source' h
    -- Whatever the source, the signature comes from a nonce in range.
    obtain ⟨k, hrange, hsign⟩ := SigningKey.exists_nonce_of_signPrehash h
    obtain ⟨hr, hs⟩ := SigningKey.inScalarRange_of_signWithNonce hk hrange hsign
    obtain ⟨valid, hvalid, hiff⟩ := SigningKey.exists_verifyPrehash_own hk z _ _
    refine ⟨Curve.inScalarRange_iff.mp hr, Curve.inScalarRange_iff.mp hs, ?_⟩
    rw [hvalid, hiff.mpr ⟨k, hrange, _, hsign⟩]

/-- The nonce one gives the secret two on the curve with 13 points a signature that verifies. -/
theorem thirteen_verifyPrehash :
    ∃ vk, (SigningKey.mk ⟨2⟩ Curve.thirteen).verifyingKey = .ok vk ∧
      vk.verifyPrehash 1 ⟨4, 9⟩ = .ok true := by
  obtain ⟨vk, hvk, -, hiff, -⟩ := @verifyPrehash_iff_signWithNonce ⟨⟨2⟩, Curve.thirteen⟩
    Curve.accepted_thirteen Curve.prime_p_thirteen Curve.prime_n_thirteen
  exact ⟨vk, hvk, (hiff 1 4 9).mpr ⟨1, le_rfl, by decide, true, by rfl⟩⟩

end EllipticSignatures
