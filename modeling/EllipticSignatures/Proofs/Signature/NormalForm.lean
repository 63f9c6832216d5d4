import EllipticSignatures.Proofs.Signature.Ecdsa

/-!
# The normal form of a signature

Replacing `s` by `n - s` negates both multipliers of verification, and so the computed point, whose
abscissa stays (`VerifyingKey.verifyPrehash_opposite`). The lower one of the two responses is the
normal form of both (`EcdsaSignature.normalize_eq_min`), and a response out of range is its own:
`verifyPrehash_normalize` says that the normal form is valid exactly when the signature is.
-/

namespace EllipticSignatures

open FieldElement

/-! ## The lower response -/

namespace EcdsaSignature

variable {c : Curve} {r s : ℕ}

theorem isLowS_iff {sig : EcdsaSignature} : sig.isLowS c ↔ sig.s ≤ c.n / 2 := by
  rw [isLowS, decide_eq_true_eq, Nat.shiftRight_one]

/-- The normal form has the lower one of the two responses. -/
theorem normalize_eq_min (hlt : s < c.n) :
    (⟨r, s⟩ : EcdsaSignature).normalize c = ⟨r, min s (c.n - s)⟩ := by
  simp only [normalize, isLowS_iff]
  by_cases hlow : s ≤ c.n / 2
  · rw [if_pos (.inl hlow), min_eq_left (by omega)]
  · rw [if_neg (not_or.mpr ⟨hlow, not_le.mpr hlt⟩), min_eq_right (by omega)]

/-- A response out of range stays. -/
theorem normalize_of_out_of_range (h : s = 0 ∨ c.n ≤ s) :
    (⟨r, s⟩ : EcdsaSignature).normalize c = ⟨r, s⟩ := by
  apply if_pos
  rw [isLowS_iff]
  exact h.imp_left fun hzero => hzero.trans_le (Nat.zero_le _)

/-- Both responses have the same normal form. -/
theorem normalize_opposite (h₁ : 1 ≤ s) (hlt : s < c.n) :
    (⟨r, c.n - s⟩ : EcdsaSignature).normalize c = (⟨r, s⟩ : EcdsaSignature).normalize c := by
  rw [normalize_eq_min hlt, normalize_eq_min (by omega), Nat.sub_sub_self hlt.le, min_comm]

/-- The normal form of a response below the group order is low. -/
theorem isLowS_normalize (hlt : s < c.n) : ((⟨r, s⟩ : EcdsaSignature).normalize c).isLowS c := by
  rw [normalize_eq_min hlt, isLowS_iff]
  show min s (c.n - s) ≤ c.n / 2
  omega

/-- The normal form is its own normal form. -/
theorem normalize_normalize (sig : EcdsaSignature) :
    (sig.normalize c).normalize c = sig.normalize c := by
  obtain ⟨r, s⟩ := sig
  by_cases hlt : s < c.n
  · exact if_pos (.inl (isLowS_normalize hlt))
  · rw [normalize_of_out_of_range (.inr (not_lt.mp hlt)),
      normalize_of_out_of_range (.inr (not_lt.mp hlt))]

end EcdsaSignature

/-! ## Verification of either response -/

namespace VerifyingKey

variable {c : Curve} [Fact c.p.Prime]

/-- A point and its opposite have the same abscissa. -/
theorem exists_abscissa_neg_iff {R : c.Point} {admitted : ZMod c.p → Prop} :
    (∃ x y h, -R = .some x y h ∧ admitted x) ↔ ∃ x y h, R = .some x y h ∧ admitted x := by
  have hneg {R : c.Point} (h : ∃ x y h, R = .some x y h ∧ admitted x) :
      ∃ x y h, -R = .some x y h ∧ admitted x := by
    obtain ⟨x, y, hxy, rfl, hx⟩ := h
    obtain ⟨hxy', hopposite⟩ := Curve.exists_neg_some hxy
    exact ⟨x, -y, hxy', hopposite, hx⟩
  constructor
  · intro h
    rw [← neg_neg R]
    exact hneg h
  · exact hneg

variable [Fact c.n.Prime]

/-- The point that verification computes for the opposite response is the opposite point. -/
theorem verified_point_neg (hc : c.Checks) {T : c.Point} (hT : c.n • T = 0) (z r s : ZMod c.n) :
    hc.multiples (z * (-s)⁻¹) + (r * (-s)⁻¹).val • T =
      -(hc.multiples (z * s⁻¹) + (r * s⁻¹).val • T) := by
  rw [inv_neg, mul_neg, mul_neg, map_neg, ← Curve.multiples_eq_val_smul hT,
    ← Curve.multiples_eq_val_smul hT, map_neg, neg_add]

/-- Both responses are valid or neither is. -/
theorem verifyPrehash_opposite (hc : c.Checks) {T : c.Point} (hT : c.n • T = 0) (z r : ℕ) {s : ℕ}
    (h₁ : 1 ≤ s) (hlt : s < c.n) :
    verifyPrehash ⟨Affine.ofPoint T, c⟩ z ⟨r, c.n - s⟩ =
      verifyPrehash ⟨Affine.ofPoint T, c⟩ z ⟨r, s⟩ := by
  obtain ⟨valid, hvalid, hiff⟩ := exists_verifyPrehash hc T z r s
  obtain ⟨valid', hvalid', hiff'⟩ := exists_verifyPrehash hc T z r (c.n - s)
  have hs : c.inScalarRange s := Curve.inScalarRange_iff.mpr ⟨h₁, hlt⟩
  rw [natCast_modulus_sub hlt.le, verified_point_neg hc hT, exists_abscissa_neg_iff] at hiff'
  have hsame : valid' = valid := by
    rw [Bool.eq_iff_iff, hiff, hiff']
    simp only [hs, Curve.inScalarRange_order_sub hs, true_and]
  rw [hvalid, hvalid', hsame]

end VerifyingKey

/-- Verification does not tell a signature from its normal form. On an accepted curve of prime
modulus and group order, a key whose point lies on the curve and is annihilated by the group order
gives the same answer for both, for all numbers. The normal form is its own, both responses in range
have the same low one, and a response out of range stays. -/
theorem verifyPrehash_normalize {key : VerifyingKey} (hc : key.curve.Accepted)
    (hp : key.curve.p.Prime) (hn : key.curve.n.Prime) (hon : key.point.OnCurve key.curve)
    (horder : PointGroup.scalarMul key.point key.curve.n key.curve = .ok .infinity) :
    (∀ z sig, ∃ valid, key.verifyPrehash z sig = .ok valid ∧
      key.verifyPrehash z (sig.normalize key.curve) = .ok valid) ∧
    (∀ sig : EcdsaSignature,
      (sig.normalize key.curve).normalize key.curve = sig.normalize key.curve) ∧
    (∀ r s, 1 ≤ s → s < key.curve.n →
      EcdsaSignature.normalize ⟨r, key.curve.n - s⟩ key.curve =
        EcdsaSignature.normalize ⟨r, s⟩ key.curve ∧
      (EcdsaSignature.normalize ⟨r, s⟩ key.curve).isLowS key.curve ∧
      (key.curve.n ≠ 2 →
        (EcdsaSignature.normalize ⟨r, s⟩ key.curve).s ≤ (key.curve.n - 1) / 2)) ∧
    ∀ r s, s = 0 ∨ key.curve.n ≤ s →
      EcdsaSignature.normalize ⟨r, s⟩ key.curve = ⟨r, s⟩ := by
  have := Fact.mk hp
  have := Fact.mk hn
  have hk := hc.checks
  obtain ⟨Q, c⟩ := key
  dsimp only at *
  obtain ⟨T, rfl⟩ := hon.exists_ofPoint hk
  have hT : c.n • T = 0 := by
    rw [Affine.scalarMul_ofPoint hk, Except.ok.injEq] at horder
    exact Affine.ofPoint_eq_infinity_iff.mp horder
  refine ⟨?_, EcdsaSignature.normalize_normalize, ?_, ?_⟩
  · rintro z ⟨r, s⟩
    obtain ⟨valid, hvalid, -⟩ := VerifyingKey.exists_verifyPrehash hk T z r s
    refine ⟨valid, hvalid, ?_⟩
    by_cases hrange : s = 0 ∨ c.n ≤ s
    · rw [EcdsaSignature.normalize_of_out_of_range hrange, hvalid]
    rw [not_or, not_le] at hrange
    obtain ⟨hs, hlt⟩ := hrange
    rw [EcdsaSignature.normalize_eq_min hlt]
    -- The lower response is the given one or its opposite.
    obtain hmin | hmin := min_choice s (c.n - s)
    · rw [hmin, hvalid]
    · rw [hmin, VerifyingKey.verifyPrehash_opposite hk hT z r (Nat.one_le_iff_ne_zero.mpr hs) hlt,
        hvalid]
  · intro r s h₁ hlt
    refine ⟨EcdsaSignature.normalize_opposite h₁ hlt, EcdsaSignature.isLowS_normalize hlt, ?_⟩
    intro hne
    have hodd := hn.eq_two_or_odd.resolve_left hne
    rw [EcdsaSignature.normalize_eq_min hlt]
    show min s (c.n - s) ≤ (c.n - 1) / 2
    omega
  · intro r s h
    exact EcdsaSignature.normalize_of_out_of_range h

/-- On the curve with 13 points the double of the generator accepts `(4, 9)` as a signature of one,
and so it accepts the normal form `(4, 4)`. -/
theorem thirteen_verifyPrehash_normalize :
    (Affine.point ⟨18, 19⟩ ⟨18, 19⟩).OnCurve Curve.thirteen ∧
      VerifyingKey.verifyPrehash ⟨.point ⟨18, 19⟩ ⟨18, 19⟩, Curve.thirteen⟩ 1 ⟨4, 9⟩ = .ok true ∧
      VerifyingKey.verifyPrehash ⟨.point ⟨18, 19⟩ ⟨18, 19⟩, Curve.thirteen⟩ 1 ⟨4, 4⟩ =
        .ok true := by
  have hon : (Affine.point ⟨18, 19⟩ ⟨18, 19⟩).OnCurve Curve.thirteen :=
    ⟨⟨by decide, by decide⟩, by rfl⟩
  have hvalid : VerifyingKey.verifyPrehash ⟨.point ⟨18, 19⟩ ⟨18, 19⟩, Curve.thirteen⟩ 1 ⟨4, 9⟩ =
      .ok true := by
    rfl
  have hnormal : (⟨4, 9⟩ : EcdsaSignature).normalize Curve.thirteen = ⟨4, 4⟩ := by
    decide
  obtain ⟨hsame, -⟩ := @verifyPrehash_normalize ⟨_, Curve.thirteen⟩ Curve.accepted_thirteen
    Curve.prime_p_thirteen Curve.prime_n_thirteen hon (Curve.cofactorOne_thirteen _ hon)
  obtain ⟨valid, hsig, hform⟩ := hsame 1 ⟨4, 9⟩
  obtain rfl := Except.ok.inj (hvalid.symm.trans hsig)
  rw [hnormal] at hform
  exact ⟨hon, hvalid, hform⟩

end EllipticSignatures
