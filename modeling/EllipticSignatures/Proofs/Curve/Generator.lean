import EllipticSignatures.Proofs.Point.Multiples

/-!
# The generator and its order

An accepted curve has a generator other than the identity whose multiple by the group order is the
identity. Multiples of such a point depend on the residue of the scalar only: `Curve.multiples` is
multiplication by residues. If the group order is prime, it is the order of the generator, and
different residues give different multiples (`Checks.multiples_injective`).
-/

namespace EllipticSignatures.Curve

variable {c : Curve} [Fact c.p.Prime]

/-! ## Multiples by residues -/

/-- The multiples of a point that the group order annihilates, by residues of scalars. -/
noncomputable def multiples {T : c.Point} (hT : c.n • T = 0) : ZMod c.n →+ c.Point :=
  ZMod.lift c.n ⟨zmultiplesHom c.Point T, by simpa using hT⟩

section Multiples

variable {T : c.Point} (hT : c.n • T = 0)

@[simp]
theorem multiples_natCast (k : ℕ) : multiples hT k = k • T := by
  rw [← Int.cast_natCast, multiples, ZMod.lift_coe, zmultiplesHom_apply, natCast_zsmul]

theorem multiples_eq_val_smul [NeZero c.n] (k : ZMod c.n) : multiples hT k = k.val • T := by
  rw [← multiples_natCast hT, ZMod.natCast_zmod_val]

/-- A multiple of a multiple is the multiple by the product. -/
theorem val_smul_multiples [NeZero c.n] (j k : ZMod c.n) :
    j.val • multiples hT k = multiples hT (j * k) := by
  rw [← map_nsmul, nsmul_eq_mul, ZMod.natCast_zmod_val]

end Multiples

/-! ## The generator -/

/-- The generator as a point of the elliptic curve. -/
theorem Checks.exists_generator (hc : c.Checks) :
    ∃ G : c.Point, c.generator = Affine.ofPoint G := by
  apply Affine.OnCurve.exists_ofPoint hc
  exact ⟨hc.inField_generator.reduced, hc.generator_onCurve⟩

/-- The generator of an accepted curve in the group of the elliptic curve. -/
noncomputable def Checks.generator (hc : c.Checks) : c.Point := hc.exists_generator.choose

theorem Checks.ofPoint_generator (hc : c.Checks) : Affine.ofPoint hc.generator = c.generator :=
  hc.exists_generator.choose_spec.symm

theorem Checks.generator_ne_zero (hc : c.Checks) : hc.generator ≠ 0 := by
  intro h
  obtain ⟨gx, gy, -, -, hg⟩ := hc.generator_eq
  rw [← hc.ofPoint_generator, h, Affine.ofPoint_zero] at hg
  exact Affine.noConfusion hg

/-- The generator in homogeneous coordinates. -/
theorem Checks.exists_projective_generator (hc : c.Checks) :
    ∃ R : Projective, PointGroup.generator c = .ok R ∧
      R.Represents c (Affine.ofPoint hc.generator) := by
  rw [hc.ofPoint_generator]
  exact Projective.exists_ofAffine hc.inField_generator

/-- The group order annihilates the generator, which is what `annihilatesGenerator` computes. -/
theorem Checks.order_smul_generator (hc : c.Checks) : c.n • hc.generator = 0 := by
  obtain ⟨G, hG, hGr⟩ := hc.exists_projective_generator
  obtain ⟨R, hR, hRr⟩ := (Projective.models hc).scalarMul hGr c.n
  -- The check reads the same product and finds the identity.
  have h := hc.annihilates
  rw [annihilatesGenerator, show Projective.ofAffine c.generator = .ok G from hG, ok_bind, hR,
    ok_bind, pure_eq_ok, Except.ok.injEq] at h
  exact (Projective.models hc).eq_zero hRr h

/-- The multiples of the generator by residues. -/
noncomputable abbrev Checks.multiples (hc : c.Checks) : ZMod c.n →+ c.Point :=
  Curve.multiples hc.order_smul_generator

/-- If the group order is prime, different residues give different multiples of the generator. -/
theorem Checks.multiples_injective (hc : c.Checks) (hn : c.n.Prime) :
    Function.Injective hc.multiples := by
  have := Fact.mk hn
  -- The order of the generator divides a prime and is not one.
  have horder : addOrderOf hc.generator = c.n :=
    addOrderOf_eq_prime hc.order_smul_generator hc.generator_ne_zero
  apply (ZMod.lift_injective c.n).mpr
  intro m hm
  -- A multiple that vanishes is a multiple by the order.
  rw [ZMod.intCast_zmod_eq_zero_iff_dvd, ← horder]
  exact addOrderOf_dvd_iff_zsmul_eq_zero.mpr (by simpa using hm)

theorem Checks.multiples_eq_zero_iff (hc : c.Checks) (hn : c.n.Prime) {k : ZMod c.n} :
    hc.multiples k = 0 ↔ k = 0 :=
  map_eq_zero_iff _ (hc.multiples_injective hn)

/-- If the group order is an odd prime, no multiple of the generator has ordinate zero: it would be
its own opposite. -/
theorem Checks.ordinate_ne_zero (hc : c.Checks) (hn : c.n.Prime) (hodd : c.n ≠ 2) {k : ZMod c.n}
    {x y : ZMod c.p} {h : c.weierstrass.Nonsingular x y} (hk : hc.multiples k = .some x y h) :
    y ≠ 0 := by
  rintro rfl
  have := Fact.mk hn
  have hdouble : hc.multiples (2 * k) = 0 := by
    rw [two_mul, map_add, hk, WeierstrassCurve.Affine.Point.add_self_of_Y_eq (by simp)]
  have hk₀ := (mul_eq_zero.mp ((hc.multiples_eq_zero_iff hn).mp hdouble)).resolve_left
    (FieldElement.two_ne_zero_of_prime hodd)
  rw [hk₀, map_zero] at hk
  exact WeierstrassCurve.Affine.Point.some_ne_zero h hk.symm

/-- The generator times a scalar, as the program computes it. -/
theorem Checks.exists_generator_mul (hc : c.Checks) (k : ℕ) :
    ∃ G R : Projective, PointGroup.generator c = .ok G ∧ PointGroup.scalarMul G k c = .ok R ∧
      R.toAffine = .ok (Affine.ofPoint (hc.multiples k)) := by
  obtain ⟨G, hG, hGr⟩ := hc.exists_projective_generator
  obtain ⟨R, hR, hRr⟩ := (Projective.models hc).scalarMul hGr k
  exact ⟨G, R, hG, hR, by rw [multiples_natCast]; exact hRr.toAffine_eq⟩

/-- The generator times a scalar in affine coordinates. -/
theorem Checks.scalarMul_generator (hc : c.Checks) (k : ℕ) :
    PointGroup.scalarMul c.generator k c = .ok (Affine.ofPoint (hc.multiples k)) := by
  rw [← hc.ofPoint_generator, Affine.scalarMul_ofPoint hc, multiples_natCast]

/-- The sum of multiples of the generator and of a second point, as the program computes it. -/
theorem Checks.exists_jointMulGenerator (hc : c.Checks) (T : c.Point) (j k : ℕ) :
    ∃ Q R, Projective.ofAffine (Affine.ofPoint T) = .ok Q ∧
      Projective.jointMulGenerator j k Q c = .ok R ∧
      R.toAffine = .ok (Affine.ofPoint (hc.multiples j + k • T)) := by
  obtain ⟨G, hG, hGr⟩ := hc.exists_projective_generator
  obtain ⟨Q, hQ, hQr⟩ := Projective.exists_ofAffine (Affine.inField_ofPoint T)
  obtain ⟨R, hR, hRr⟩ := (Projective.models hc).jointMul hGr hQr j k
  refine ⟨Q, R, hQ, ?_, ?_⟩
  · rw [Projective.jointMulGenerator, hG, ok_bind, hR]
  · rw [multiples_natCast]
    exact hRr.toAffine_eq

/-! ## Cofactor one -/

/-- The group order annihilates every point of the curve. -/
def CofactorOne (c : Curve) : Prop :=
  ∀ P : Affine, P.OnCurve c → PointGroup.scalarMul P c.n c = .ok .infinity

theorem CofactorOne.order_smul (h : c.CofactorOne) (hc : c.Checks) (T : c.Point) :
    c.n • T = 0 := by
  have hzero := h _ (Affine.onCurve_ofPoint hc T)
  rw [Affine.scalarMul_ofPoint hc, Except.ok.injEq] at hzero
  exact Affine.ofPoint_eq_infinity_iff.mp hzero

/-- Thirteen times any point of the curve with 13 points is the identity. -/
theorem cofactorOne_thirteen : thirteen.CofactorOne := by
  have hall : ∀ x < 19, ∀ y < 19,
      (Affine.point ⟨x, 19⟩ ⟨y, 19⟩).isOnCurve thirteen = .ok true →
        PointGroup.scalarMul (Affine.point ⟨x, 19⟩ ⟨y, 19⟩) 13 thirteen = .ok .infinity := by
    decide +kernel
  intro P hP
  -- A point that passes the check has coordinates below 19, so it is one of those searched.
  have hfield := hP.inField
  cases P with
  | infinity => rfl
  | point x y =>
    obtain ⟨x, _⟩ := x
    obtain ⟨y, _⟩ := y
    obtain ⟨⟨rfl, hx⟩, ⟨rfl, hy⟩⟩ := hfield
    exact hall x hx y hy hP.passes

end EllipticSignatures.Curve
