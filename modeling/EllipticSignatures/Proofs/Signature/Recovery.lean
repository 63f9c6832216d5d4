import EllipticSignatures.Signature.Message
import EllipticSignatures.Proofs.Field.SquareRoot
import EllipticSignatures.Proofs.Key.Address
import EllipticSignatures.Proofs.Key.Signing

/-!
# Recovered public points

A signature `(r, s)` of `z` belongs to the public point `(-z / r) G + (s / r) R` for a nonce point
`R`. The candidates are these points for the nonce points of abscissa `r` itself, less the identity
(`exists_recoverCandidates`). If the group order annihilates every point of the curve, different
nonce points give different public points (`recovered_injective`).
-/

namespace EllipticSignatures

open FieldElement

namespace MessageSignature

variable {c : Curve} [Fact c.p.Prime]

/-- The public point that a signature `(r, s)` of `z` belongs to if its nonce point is `R`. -/
noncomputable def recovered (hc : c.Checks) (z r s : ZMod c.n) (R : c.Point) : c.Point :=
  hc.multiples (-z * r⁻¹) + (s * r⁻¹).val • R

/-- If the group order annihilates every point, the public point tells the nonce point. -/
theorem recovered_injective [Fact c.n.Prime] (hc : c.Checks) (hone : ∀ T : c.Point, c.n • T = 0)
    (z : ZMod c.n) {r s : ZMod c.n} (hr : r ≠ 0) (hs : s ≠ 0) :
    Function.Injective (recovered hc z r s) := by
  intro R S h
  have hu : s * r⁻¹ ≠ 0 := mul_ne_zero hs (inv_ne_zero hr)
  have hzero : Curve.multiples (hone (R - S)) (s * r⁻¹) = 0 := by
    rw [Curve.multiples_eq_val_smul, nsmul_sub, sub_eq_zero]
    exact add_left_cancel h
  -- The difference is the inverse multiple of a multiple that vanishes.
  have hdiff : R - S = 0 := by
    calc R - S = Curve.multiples (hone (R - S)) ((1 : ℕ) : ZMod c.n) := by
          rw [Curve.multiples_natCast, one_smul]
      _ = Curve.multiples (hone (R - S)) ((s * r⁻¹)⁻¹ * (s * r⁻¹)) := by
          rw [inv_mul_cancel₀ hu, Nat.cast_one]
      _ = ((s * r⁻¹)⁻¹).val • Curve.multiples (hone (R - S)) (s * r⁻¹) :=
          (Curve.val_smul_multiples _ _ _).symm
      _ = 0 := by rw [hzero, nsmul_zero]
  exact sub_eq_zero.mp hdiff

/-! ## The candidates -/

omit [Fact c.p.Prime] in
/-- What recovery refuses at once is exactly what is out of range. -/
theorem refused_iff {r s : ℕ} :
    (!c.inScalarRange r || !c.inScalarRange s || decide (c.p ≤ r)) = true ↔
      ¬(c.inScalarRange r ∧ c.inScalarRange s ∧ r < c.p) := by
  rw [not_and_or, not_and_or, not_lt, Bool.not_eq_true, Bool.not_eq_true]
  simp [or_assoc]

omit [Fact c.p.Prime] in
/-- A signature with a number out of range has no candidates. -/
theorem recoverCandidates_of_out_of_range {r s : ℕ}
    (h : ¬(c.inScalarRange r ∧ c.inScalarRange s ∧ r < c.p)) (z : ℕ) :
    recoverCandidates c ⟨r, s⟩ z = .ok [] := by
  rw [recoverCandidates, if_pos (refused_iff.mpr h), pure_eq_ok]

/-- The public point of one nonce point is found unless it is the identity. -/
theorem recoverFrom_eq [Fact c.n.Prime] (hc : c.Checks) (z r s : ZMod c.n) {x y : ZMod c.p}
    (h : c.weierstrass.Nonsingular x y) :
    recoverFrom c (-z * r⁻¹ : ZMod c.n).val (s * r⁻¹ : ZMod c.n).val (ofZMod x) (ofZMod y) =
      .ok ((some (Affine.ofPoint (recovered hc z r s (.some x y h)))).filter (!·.isInfinity)) := by
  obtain ⟨R, S, hR, hmul, hA⟩ := hc.exists_jointMulGenerator (.some x y h)
    (-z * r⁻¹ : ZMod c.n).val (s * r⁻¹ : ZMod c.n).val
  rw [ZMod.natCast_zmod_val, ← recovered] at hA
  rw [Affine.ofPoint_some] at hR
  rw [recoverFrom, hR, ok_bind, hmul, ok_bind, hA, ok_bind]
  rcases recovered hc z r s (.some x y h) with _ | ⟨u, v, huv⟩ <;> rfl

/-- If the abscissa `r` has an ordinate, the candidates are the public points of the root that is
found and of its opposite, less the identity. -/
theorem recoverCandidates_of_sqrt [Fact c.n.Prime] (hc : c.Checks) {r s : ℕ}
    (hr : c.inScalarRange r) (hs : c.inScalarRange s) (hrp : r < c.p) (z : ℕ) {x y : ZMod c.p}
    (hx : x = (r : ZMod c.p))
    (hsqrt : (ofZMod (x * x * x + c.weierstrass.a₄ * x + c.weierstrass.a₆)).sqrt =
      .ok (some (ofZMod y)))
    (h : c.weierstrass.Nonsingular x y) (hopposite : c.weierstrass.Nonsingular x (-y)) :
    recoverCandidates c ⟨r, s⟩ z = .ok
      ([Affine.ofPoint (recovered hc z r s (.some x y h)),
        Affine.ofPoint (recovered hc z r s (.some x (-y) hopposite))].filter (!·.isInfinity)) := by
  have hguard := refused_iff.not.mpr (not_not.mpr ⟨hr, hs, hrp⟩)
  rw [recoverCandidates, if_neg hguard]
  simp only [Curve.baseElement, Curve.scalarElement, ofNat_eq_ofZMod, ok_bind,
    Curve.rhs_ofZMod hc, ← hx, hsqrt, invert_ofZMod (Curve.cast_ne_zero_of_inScalarRange hr),
    neg_ofZMod, mul_ofZMod, value_ofZMod, recoverFrom_eq hc _ _ _ h,
    recoverFrom_eq hc _ _ _ hopposite, pure_eq_ok, Option.toList_filter, Option.toList_some,
    ← List.filter_append, List.singleton_append]

/-- On an accepted curve of prime modulus and group order, recovery gives an answer for all numbers
in range, and the candidates are the public points of the nonce points of abscissa `r`, less the
identity. -/
theorem exists_recoverCandidates [Fact c.n.Prime] (hc : c.Checks) {r s : ℕ}
    (hr : c.inScalarRange r) (hs : c.inScalarRange s) (hrp : r < c.p) (z : ℕ) :
    ∃ candidates, recoverCandidates c ⟨r, s⟩ z = .ok candidates ∧
      ∀ Q, Q ∈ candidates ↔ ∃ y h, recovered hc z r s (.some (r : ZMod c.p) y h) ≠ 0 ∧
        Q = Affine.ofPoint (recovered hc z r s (.some (r : ZMod c.p) y h)) := by
  have hguard := refused_iff.not.mpr (not_not.mpr ⟨hr, hs, hrp⟩)
  set x : ZMod c.p := (r : ZMod c.p) with hx
  by_cases hroot : IsSquare (x * x * x + c.weierstrass.a₄ * x + c.weierstrass.a₆)
  swap
  · -- No point of the curve has abscissa `r`.
    refine ⟨[], ?_, fun Q => ⟨fun h => absurd h List.not_mem_nil, ?_⟩⟩
    · rw [recoverCandidates, if_neg hguard]
      simp only [Curve.baseElement, ofNat_eq_ofZMod, ok_bind, Curve.rhs_ofZMod hc,
        sqrt_of_not_isSquare hc.p_ne_two hroot, pure_eq_ok, ← hx]
    · rintro ⟨y, h, -⟩
      exact absurd ⟨y, (Curve.equation_iff_rhs.mp h.left).symm⟩ hroot
  obtain ⟨y, hy, hsqrt⟩ := sqrt_of_isSquare hc.p_ne_two hroot
  have hpoint : c.weierstrass.Nonsingular x y :=
    Curve.nonsingular_of_equation hc (Curve.equation_iff_rhs.mpr hy)
  obtain ⟨hopposite, -⟩ := Curve.exists_neg_some hpoint
  refine ⟨_, recoverCandidates_of_sqrt hc hr hs hrp z hx hsqrt hpoint hopposite, ?_⟩
  -- Both candidates are points, and the program drops those at infinity.
  intro Q
  have hfinite (T : c.Point) : (!(Affine.ofPoint T).isInfinity) = true ↔ T ≠ 0 := by
    cases T <;> simp [Affine.isInfinity, ← WeierstrassCurve.Affine.Point.zero_def]
  simp only [List.mem_filter, List.mem_cons, List.not_mem_nil, or_false]
  constructor
  · rintro ⟨rfl | rfl, hne⟩
    · exact ⟨y, hpoint, (hfinite _).mp hne, rfl⟩
    · exact ⟨-y, hopposite, (hfinite _).mp hne, rfl⟩
  · -- The ordinates of one abscissa are the root and its opposite.
    rintro ⟨v, hv, hne, rfl⟩
    refine ⟨?_, (hfinite _).mpr hne⟩
    have hvy : v * v = y * y := (Curve.equation_iff_rhs.mp hv.left).trans hy.symm
    obtain rfl | rfl := mul_self_eq_mul_self_iff.mp hvy
    · exact .inl rfl
    · exact .inr rfl

/-! ## The search for an address -/

omit [Fact c.p.Prime] in
/-- The search through finite points with reduced coordinates gives an answer, for every modulus,
and the answer is yes iff one of them has the address. -/
theorem exists_anyHasAddress_of_inField [Digests] [NeZero c.p] (format : PointFormat)
    (address : Address) {candidates : List Affine}
    (h : ∀ Q ∈ candidates, Q ≠ .infinity ∧ Q.InField c.p) :
    ∃ valid, anyHasAddress c format address candidates = .ok valid ∧
      (valid = true ↔
        ∃ Q ∈ candidates, (⟨Q, c⟩ : VerifyingKey).address format = .ok address) := by
  induction candidates with
  | nil => exact ⟨false, rfl, by simp⟩
  | cons Q rest ih =>
    obtain ⟨⟨hfinite, hfield⟩, hrest⟩ := List.forall_mem_cons.mp h
    obtain ⟨valid, hvalid, hiff⟩ := ih hrest
    obtain ⟨encoded, hencoded⟩ := Affine.exists_toSec1 hfield hfinite format
    have haddress : (⟨Q, c⟩ : VerifyingKey).address format = .ok (Address.ofSec1 encoded) := by
      rw [VerifyingKey.address_eq_ok_iff]
      exact ⟨encoded, by rw [VerifyingKey.toSec1, hencoded], rfl⟩
    rw [anyHasAddress, hencoded]
    by_cases hfound : Address.ofSec1 encoded = address
    · exact ⟨true, if_pos hfound, by simp [haddress, hfound]⟩
    · refine ⟨valid, (if_neg hfound).trans hvalid, ?_⟩
      simp [haddress, hfound, hiff]

/-- The search through points of the curve gives an answer, and the answer is yes iff one of them
has the address. -/
theorem exists_anyHasAddress [Digests] (format : PointFormat) (address : Address)
    {candidates : List Affine} (h : ∀ Q ∈ candidates, ∃ T : c.Point, T ≠ 0 ∧ Q = Affine.ofPoint T) :
    ∃ valid, anyHasAddress c format address candidates = .ok valid ∧
      (valid = true ↔
        ∃ Q ∈ candidates, (⟨Q, c⟩ : VerifyingKey).address format = .ok address) := by
  apply exists_anyHasAddress_of_inField
  intro Q hQ
  obtain ⟨T, hT, rfl⟩ := h Q hQ
  exact ⟨Affine.ofPoint_eq_infinity_iff.not.mpr hT, Affine.inField_ofPoint T⟩

end MessageSignature

end EllipticSignatures
