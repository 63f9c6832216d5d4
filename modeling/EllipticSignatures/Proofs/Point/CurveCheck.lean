import EllipticSignatures.Proofs.Point.AnyModulus

/-!
# The two checks of the curve equation

The check of affine coordinates compares both moduli with that of the curve before it computes; the
homogeneous one compares only that of the first coordinate. On one field they agree: for a triple
with coordinates modulo a prime, and for the triple of an affine point.

A pair can also hold elements of different fields. The homogeneous check rejects such a point by its
abscissa, but an abscissa in the field of the curve lets an ordinate of another field through, and
the first product with `z` is a fault (`Projective.isOnCurve_of_ordinateOutside`).
-/

namespace EllipticSignatures

open FieldElement

/-! ## Elements of different fields -/

namespace FieldElement

variable {a b : FieldElement}

theorem mul_of_modulus_ne (h : a.modulus ≠ b.modulus) : a.mul b = .error .mixedModuli := by
  simp [mul, requireSameField, h]

theorem exists_square (h : a.modulus ≠ 0) : ∃ s, a.square = .ok s ∧ s.modulus = a.modulus := by
  refine ⟨⟨a.value * a.value % a.modulus, a.modulus⟩, ?_, rfl⟩
  simp [square, mul, requireSameField, Checked.mod_of_pos (Nat.pos_of_ne_zero h)]

/-- The element is reduced under a modulus above one. -/
structure Proper (a : FieldElement) : Prop where
  /-- The modulus exceeds one. -/
  two_le_modulus : 2 ≤ a.modulus
  /-- The residue is below the modulus. -/
  reduced : a.Reduced

end FieldElement

namespace Affine

/-- Each coordinate is proper, under its own modulus. -/
def Proper : Affine → Prop
  | .infinity => True
  | .point x y => x.Proper ∧ y.Proper

/-- The abscissa lies in the field of the curve and the ordinate in another one. -/
def OrdinateOutside (c : Curve) : Affine → Prop
  | .infinity => False
  | .point x y => x.modulus = c.p ∧ y.modulus ≠ c.p

instance (c : Curve) : (A : Affine) → Decidable (A.OrdinateOutside c)
  | .infinity => inferInstanceAs (Decidable False)
  | .point _ _ => inferInstanceAs (Decidable (_ ∧ _))

end Affine

namespace Projective

variable {c : Curve} {P : Projective} {x y : FieldElement}

/-! ## Triples of affine points -/

/-- The triple of a finite point has `z = 1`, in the field of the abscissa. -/
theorem ofAffine_point (hx : 2 ≤ x.modulus) :
    ofAffine (.point x y) = .ok (.point x y ⟨1, x.modulus⟩) := by
  have hone : one x.modulus = .ok ⟨1, x.modulus⟩ := by
    rw [one, ofNat, Checked.mod_of_pos (by omega), Nat.mod_eq_of_lt (by omega)]
    rfl
  rw [ofAffine, hone]
  rfl

/-- An abscissa of another field is rejected before anything is computed. -/
theorem isOnCurve_of_modulus_ne {z : FieldElement} (hP : P.parts = some (x, y, z))
    (hx : x.modulus ≠ c.p) : P.isOnCurve c = .ok false := by
  simp [isOnCurve, hP, hx]

/-- An ordinate of another field meets `z` in a product. -/
theorem isOnCurve_of_ordinateOutside {z : FieldElement} (hP : P.parts = some (x, y, z))
    (hx : x.modulus = c.p) (hy : y.modulus ≠ 0) (hz : z.modulus ≠ 0)
    (hyz : y.modulus ≠ z.modulus) : P.isOnCurve c = .error .mixedModuli := by
  obtain ⟨zz, hzz, -⟩ := exists_square hz
  obtain ⟨yy, hyy, hmodulus⟩ := exists_square hy
  have hmul : yy.mul z = .error .mixedModuli := mul_of_modulus_ne (by rwa [hmodulus])
  simp [isOnCurve, hP, hx, hzz, hyy, hmul]

/-- With `z = 1` the homogeneous equation is the affine one, for every modulus. -/
theorem isOnCurve_one (hc : c.Checks) {A : Affine} (hA : A.InField c.p) :
    ∃ R answer, ofAffine A = .ok R ∧ A.isOnCurve c = .ok answer ∧ R.isOnCurve c = .ok answer := by
  cases A with
  | infinity => exact ⟨.infinity, true, rfl, rfl, rfl⟩
  | point x y =>
    have := hc.neZero_p
    have := Fact.mk (show 1 < c.p from hc.two_le_p)
    obtain ⟨x, rfl⟩ := hA.left.exists_ofZMod
    obtain ⟨y, rfl⟩ := hA.right.exists_ofZMod
    have hone : (1 : ZMod c.p) ≠ 0 := one_ne_zero
    refine ⟨ofTriple x y 1, _, by simp [ofAffine], Affine.isOnCurve_point hc x y, ?_⟩
    rw [isOnCurve_of_parts hc (parts_ofTriple hone)]
    simp only [mul_one]

/-- The triple of a point with coordinates under any moduli gives the answer of the point, unless
only the abscissa lies in the field of the curve. -/
theorem isOnCurve_ofAffine (hc : c.Checks) {A : Affine} (hA : A.Proper)
    (hin : ¬A.OrdinateOutside c) :
    ∃ R answer, ofAffine A = .ok R ∧ A.isOnCurve c = .ok answer ∧ R.isOnCurve c = .ok answer := by
  cases A with
  | infinity => exact ⟨.infinity, true, rfl, rfl, rfl⟩
  | point x y =>
    obtain ⟨hx, hy⟩ := hA
    by_cases hmx : x.modulus = c.p
    · have hmy : y.modulus = c.p := by
        by_contra hne
        exact hin ⟨hmx, hne⟩
      exact isOnCurve_one hc ⟨⟨hmx, hx.reduced⟩, ⟨hmy, hy.reduced⟩⟩
    · refine ⟨_, false, ofAffine_point hx.two_le_modulus, by simp [Affine.isOnCurve, hmx], ?_⟩
      exact isOnCurve_of_modulus_ne rfl hmx

/-- If only the abscissa lies in the field of the curve, the point is rejected and its triple is a
fault. -/
theorem isOnCurve_ofAffine_of_ordinateOutside {A : Affine} (hA : A.Proper)
    (hout : A.OrdinateOutside c) :
    ∃ R, ofAffine A = .ok R ∧ A.isOnCurve c = .ok false ∧
      R.isOnCurve c = .error .mixedModuli := by
  cases A with
  | infinity => exact hout.elim
  | point x y =>
    obtain ⟨hx, hy⟩ := hA
    obtain ⟨hmx, hmy⟩ := hout
    have hx₂ := hx.two_le_modulus
    have hy₂ := hy.two_le_modulus
    refine ⟨_, ofAffine_point hx₂, by simp [Affine.isOnCurve, hmy], ?_⟩
    apply isOnCurve_of_ordinateOutside rfl hmx
    · omega
    · simp only
      omega
    · simp only [hmx]
      exact hmy

/-! ## Triples modulo a prime -/

/-- A triple with coordinates modulo a prime, that of the curve or another one, passes the check iff
its affine point does. -/
theorem InField.isOnCurve_toAffine (hc : c.Checks) {m : ℕ} [Fact m.Prime] (h : P.InField m) :
    ∃ A answer, P.toAffine = .ok A ∧ P.isOnCurve c = .ok answer ∧ A.isOnCurve c = .ok answer := by
  rcases h.parts_cases with hP | ⟨x, y, z, hz, hP⟩
  · exact ⟨.infinity, true, toAffine_of_parts_none hP, by rw [isOnCurve, hP], rfl⟩
  by_cases hm : m = c.p
  · subst hm
    refine ⟨_, _, toAffine_of_parts_some hz hP, isOnCurve_of_parts hc hP, ?_⟩
    -- Divided by `z³`, the homogeneous equation is the affine one.
    rw [Affine.isOnCurve_point hc, Except.ok.injEq, decide_eq_decide]
    field_simp
  · exact ⟨_, false, toAffine_of_parts_some hz hP, isOnCurve_of_modulus_ne hP hm,
      by simp [Affine.isOnCurve, hm]⟩

end Projective

/-- The two checks agree wherever the homogeneous one answers. On every accepted curve, of prime
modulus or not, for all affine points whose coordinates are reduced under moduli above one, their
own: the affine check answers, and the homogeneous check of their triple gives the same answer
exactly if not only the abscissa lies in the field of the curve. If only the abscissa does, the
affine check says no and the homogeneous one is a fault. And for all triples with coordinates modulo
one prime, both checks answer alike. -/
theorem isOnCurve_agree_iff {c : Curve} (hc : c.Accepted) :
    (∀ A : Affine, A.Proper →
      ∃ R answer, Projective.ofAffine A = .ok R ∧ A.isOnCurve c = .ok answer ∧
        (R.isOnCurve c = .ok answer ↔ ¬A.OrdinateOutside c) ∧
        (A.OrdinateOutside c → answer = false ∧ R.isOnCurve c = .error .mixedModuli)) ∧
    ∀ m : ℕ, m.Prime → ∀ P : Projective, P.InField m →
      ∃ A answer, P.toAffine = .ok A ∧ P.isOnCurve c = .ok answer ∧
        A.isOnCurve c = .ok answer := by
  have hk := hc.checks
  constructor
  · intro A hA
    by_cases hout : A.OrdinateOutside c
    · obtain ⟨R, hR, hno, hfault⟩ := Projective.isOnCurve_ofAffine_of_ordinateOutside hA hout
      exact ⟨R, false, hR, hno, by simp [hfault, hout], fun _ => ⟨rfl, hfault⟩⟩
    · obtain ⟨R, answer, hR, haffine, hhomogeneous⟩ :=
        Projective.isOnCurve_ofAffine hk hA hout
      exact ⟨R, answer, hR, haffine, by simp [hhomogeneous, hout], fun h => absurd h hout⟩
  · intro m hm P hP
    have := Fact.mk hm
    exact hP.isOnCurve_toAffine hk

/-- On the curve with 13 points, a point of another field, one of the curve's field that is not on
the curve, and a triple with `z = 2`. -/
theorem thirteen_isOnCurve_agree :
    let A : Affine := .point ⟨4, 23⟩ ⟨3, 19⟩
    let B : Affine := .point ⟨5, 19⟩ ⟨7, 19⟩
    let P : Projective := .point ⟨8, 19⟩ ⟨6, 19⟩ ⟨2, 19⟩
    A.Proper ∧ B.Proper ∧ P.InField 19 ∧
      ¬A.OrdinateOutside Curve.thirteen ∧ ¬B.OrdinateOutside Curve.thirteen ∧
      (∃ R answer, Projective.ofAffine A = .ok R ∧ A.isOnCurve Curve.thirteen = .ok answer ∧
        R.isOnCurve Curve.thirteen = .ok answer) ∧
      (∃ R answer, Projective.ofAffine B = .ok R ∧ B.isOnCurve Curve.thirteen = .ok answer ∧
        R.isOnCurve Curve.thirteen = .ok answer) ∧
      ∃ Q answer, P.toAffine = .ok Q ∧ P.isOnCurve Curve.thirteen = .ok answer ∧
        Q.isOnCurve Curve.thirteen = .ok answer := by
  intro A B P
  have hA : A.Proper := ⟨⟨by decide, by decide⟩, by decide, by decide⟩
  have hB : B.Proper := ⟨⟨by decide, by decide⟩, by decide, by decide⟩
  have hP : P.InField 19 := ⟨⟨rfl, by decide⟩, ⟨rfl, by decide⟩, ⟨rfl, by decide⟩⟩
  have hAin : ¬A.OrdinateOutside Curve.thirteen := by decide
  have hBin : ¬B.OrdinateOutside Curve.thirteen := by decide
  obtain ⟨affine, homogeneous⟩ := isOnCurve_agree_iff Curve.accepted_thirteen
  obtain ⟨R, a, hR, hAa, hRa, -⟩ := affine A hA
  obtain ⟨S, b, hS, hBb, hSb, -⟩ := affine B hB
  exact ⟨hA, hB, hP, hAin, hBin, ⟨R, a, hR, hAa, hRa.mpr hAin⟩, ⟨S, b, hS, hBb, hSb.mpr hBin⟩,
    homogeneous 19 (by norm_num) P hP⟩

/-- On the curve with 13 points, the abscissa of the generator with an ordinate modulo 23: the
affine check says no, and the homogeneous check of the same point is a fault. -/
theorem thirteen_isOnCurve_mixedModuli :
    let A : Affine := .point ⟨4, 19⟩ ⟨3, 23⟩
    Curve.thirteen.Accepted ∧ A.Proper ∧ A.isOnCurve Curve.thirteen = .ok false ∧
      (Projective.ofAffine A >>= fun R => R.isOnCurve Curve.thirteen) =
        .error .mixedModuli := by
  intro A
  exact ⟨Curve.accepted_thirteen, ⟨⟨by decide, by decide⟩, by decide, by decide⟩, by rfl, by rfl⟩

end EllipticSignatures
