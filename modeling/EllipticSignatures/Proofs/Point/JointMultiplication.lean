import EllipticSignatures.Proofs.Curve.Generator
import EllipticSignatures.Proofs.Point.SamePoint

/-!
# Joint multiplication is the sum of two multiplications

`PointGroup.jointMul` reads two scalars at once. On points of the curve it gives what two separate
multiplications and one addition give, for all scalars (`jointMul_eq_add_scalarMul`). In affine
coordinates the results are equal. In homogeneous coordinates they are the same point, which is what
`Projective.same` decides; the triples themselves differ by a factor.

A triple with `z = 0` passes the check of the curve whatever its other coordinates are, also those
of other fields. `Projective.Denotes` therefore lets every such triple stand for the identity.
-/

namespace EllipticSignatures

open FieldElement

namespace Projective

/-- The coordinates of the point are reduced, each under its own modulus. -/
def Reduced : Projective → Prop
  | .infinity => True
  | .point x y z => x.Reduced ∧ y.Reduced ∧ z.Reduced

/-- The point has reduced coordinates and passes the check of the curve. -/
structure OnCurve (c : Curve) (P : Projective) : Prop where
  /-- The coordinates are reduced. -/
  reduced : P.Reduced
  /-- The check answers yes. -/
  passes : P.isOnCurve c = .ok true

/-- The triple stands for the point `g` of the elliptic curve. -/
def Denotes (c : Curve) (P : Projective) (g : c.Point) : Prop :=
  (P.parts = none ∧ g = 0) ∨ Represents c P (Affine.ofPoint g)

variable {c : Curve} {P Q : Projective}

/-! ## Triples that pass the check -/

/-- The check compares the modulus of `x` only, but its products force those of `y` and `z`. -/
theorem moduli_of_isOnCurve (hc : c.Checks) {x y z : FieldElement} (hP : P.parts = some (x, y, z))
    (h : P.isOnCurve c = .ok true) :
    x.modulus = c.p ∧ y.modulus = c.p ∧ z.modulus = c.p := by
  by_cases hx : x.modulus = c.p
  swap
  · simp [isOnCurve, hP, hx] at h
  simp only [isOnCurve, hP, hx, ne_eq, not_true_eq_false, if_false] at h
  obtain ⟨zz, hzz, h⟩ := bind_eq_ok.mp h
  obtain ⟨yy, hyy, h⟩ := bind_eq_ok.mp h
  obtain ⟨lhs, hlhs, h⟩ := bind_eq_ok.mp h
  obtain ⟨cube, -, h⟩ := bind_eq_ok.mp h
  obtain ⟨ax, hax, h⟩ := bind_eq_ok.mp h
  obtain ⟨axzz, haxzz, -⟩ := bind_eq_ok.mp h
  -- `z²` is multiplied with `a x`, and `y²` with `z`.
  have hz : z.modulus = c.p := by
    rw [← hc.a_modulus, ← (modulus_of_mul hax).right, (modulus_of_mul haxzz).left,
      (modulus_of_mul hzz).right]
  have hy : y.modulus = c.p := by
    rw [← (modulus_of_mul hyy).right, (modulus_of_mul hlhs).left, hz]
  exact ⟨hx, hy, hz⟩

/-- A triple that passes the check is the identity or has coordinates in the field of the curve. -/
theorem OnCurve.parts_eq_none_or_inField (hc : c.Checks) (h : P.OnCurve c) :
    P.parts = none ∨ P.InField c.p := by
  cases P with
  | infinity => exact .inl rfl
  | point x y z =>
    by_cases hz : z.isZero
    · exact .inl (if_pos hz)
    · have hparts : (Projective.point x y z).parts = some (x, y, z) := if_neg hz
      obtain ⟨hx, hy, hz⟩ := moduli_of_isOnCurve hc hparts h.passes
      obtain ⟨hxr, hyr, hzr⟩ := h.reduced
      exact .inr ⟨⟨hx, hxr⟩, ⟨hy, hyr⟩, ⟨hz, hzr⟩⟩

variable [Fact c.p.Prime] {g : c.Point}

/-- Divided by `z³`, the homogeneous equation is the equation of the affine point. -/
theorem isOnCurve_iff_equation (hc : c.Checks) {x y z : ZMod c.p} (hz : z ≠ 0)
    (hP : P.parts = some (ofZMod x, ofZMod y, ofZMod z)) :
    P.isOnCurve c = .ok true ↔ c.weierstrass.Equation (x / z) (y / z) := by
  rw [isOnCurve_of_parts hc hP, Except.ok.injEq, decide_eq_true_eq, Curve.equation_iff_rhs]
  field_simp

/-- Every triple that passes the check stands for a point of the elliptic curve. -/
theorem OnCurve.exists_denotes (hc : c.Checks) (h : P.OnCurve c) : ∃ g, Denotes c P g := by
  rcases h.parts_eq_none_or_inField hc with hnone | hfield
  · exact ⟨0, .inl ⟨hnone, rfl⟩⟩
  rcases hfield.parts_cases with hnone | ⟨x, y, z, hz, hP⟩
  · exact ⟨0, .inl ⟨hnone, rfl⟩⟩
  · have hequation := (isOnCurve_iff_equation hc hz hP).mp h.passes
    have hpoint := Curve.nonsingular_of_equation hc hequation
    refine ⟨.some (x / z) (y / z) hpoint, .inr ⟨hfield, ?_⟩⟩
    rw [Affine.ofPoint_some, toAffine_of_parts_some hz hP]

omit [Fact c.p.Prime] in
/-- Coordinates in a field are reduced. -/
theorem InField.reduced {m : ℕ} (h : P.InField m) : P.Reduced := by
  cases P with
  | infinity => trivial
  | point x y z => exact ⟨h.left.reduced, h.right.left.reduced, h.right.right.reduced⟩

/-- A triple of residues that stands for a point of the elliptic curve passes the check. -/
theorem Represents.onCurve (hc : c.Checks) (h : Represents c P (Affine.ofPoint g)) :
    P.OnCurve c := by
  refine ⟨h.inField.reduced, ?_⟩
  rcases h.cases with ⟨hP, -⟩ | ⟨x, y, z, hz, hP, hg⟩
  · rw [isOnCurve, hP]
  · rw [isOnCurve_iff_equation hc hz hP, ← Affine.onCurve_point_iff hc, ← hg]
    exact Affine.onCurve_ofPoint hc g

/-! ## The group -/

/-- A triple that stands for the identity has no coordinates. -/
theorem Denotes.parts_eq_none (h : Denotes c P 0) : P.parts = none := by
  rcases h with ⟨hnone, -⟩ | h
  · exact hnone
  rcases h.cases with ⟨hnone, -⟩ | ⟨x, y, z, -, -, hzero⟩
  · exact hnone
  · rw [Affine.ofPoint_zero] at hzero
    exact Affine.noConfusion hzero

/-- Two triples that stand for one point are the same point. -/
theorem Denotes.same (hP : Denotes c P g) (hQ : Denotes c Q g) : P.same Q = .ok true := by
  by_cases hg : g = 0
  · subst hg
    rw [Projective.same, hP.parts_eq_none, hQ.parts_eq_none]
  -- Away from the identity both triples are in the field and have one affine point.
  have hPg : Represents c P (Affine.ofPoint g) := hP.resolve_left fun h => hg h.right
  have hQg : Represents c Q (Affine.ofPoint g) := hQ.resolve_left fun h => hg h.right
  exact (hPg.inField.same_iff hQg.inField).mpr (hPg.toAffine_eq.trans hQg.toAffine_eq.symm)

/-- Triples of the curve, those with `z = 0` from any field included, follow its group. -/
theorem denotes_models (hc : c.Checks) : PointGroup.Models c (Denotes c) where
  identity := .inl ⟨rfl, rfl⟩
  eq_zero {P g} hP hzero := by
    rcases hP with ⟨-, hg⟩ | hP
    · exact hg
    · exact (models hc).eq_zero hP hzero
  add {P Q g h} hP hQ := by
    -- The identity on either side leaves the other operand as it is.
    rcases hP with ⟨hnone, rfl⟩ | hP
    · exact ⟨Q, by simp [PointGroup.add, Projective.add, hnone], by rwa [zero_add]⟩
    rcases hQ with ⟨hnone, rfl⟩ | hQ
    · rw [add_zero]
      by_cases hzero : P.parts = none
      · obtain rfl := (models hc).eq_zero hP (Option.isNone_iff_eq_none.mpr hzero)
        exact ⟨Q, by simp [PointGroup.add, Projective.add, hzero], .inl ⟨hnone, rfl⟩⟩
      · obtain ⟨parts, hparts⟩ := Option.ne_none_iff_exists'.mp hzero
        exact ⟨P, by simp [PointGroup.add, Projective.add, hparts, hnone], .inr hP⟩
    obtain ⟨R, hR, hRr⟩ := (models hc).add hP hQ
    exact ⟨R, hR, .inr hRr⟩
  double {P g} hP := by
    rcases hP with ⟨hnone, rfl⟩ | hP
    · exact ⟨.infinity, by simp [PointGroup.double, Projective.double, hnone],
        .inl ⟨rfl, add_zero 0⟩⟩
    · obtain ⟨R, hR, hRr⟩ := (models hc).double hP
      exact ⟨R, hR, .inr hRr⟩
  negate {P g} hP := by
    rcases hP with ⟨hnone, rfl⟩ | hP
    · exact ⟨.infinity, by simp [PointGroup.negate, Projective.negate, hnone],
        .inl ⟨rfl, neg_zero⟩⟩
    · obtain ⟨R, hR, hRr⟩ := (models hc).negate hP
      exact ⟨R, hR, .inr hRr⟩

end Projective

/-- In any representation that follows a group, joint multiplication and two multiplications with an
addition exist and represent one element. -/
theorem PointGroup.Models.exists_jointMul_sum {c : Curve} {G A : Type} [PointGroup G]
    [AddCommGroup A] {r : G → A → Prop} (h : PointGroup.Models c r) {P Q : G} {a b : A}
    (hP : r P a) (hQ : r Q b) (j k : ℕ) :
    ∃ R M N S, PointGroup.jointMul j P k Q c = .ok R ∧ PointGroup.scalarMul P j c = .ok M ∧
      PointGroup.scalarMul Q k c = .ok N ∧ PointGroup.add M N c = .ok S ∧
      r R (j • a + k • b) ∧ r S (j • a + k • b) := by
  obtain ⟨R, hR, hRr⟩ := h.jointMul hP hQ j k
  obtain ⟨M, hM, hMr⟩ := h.scalarMul hP j
  obtain ⟨N, hN, hNr⟩ := h.scalarMul hQ k
  obtain ⟨S, hS, hSr⟩ := h.add hMr hNr
  exact ⟨R, M, N, S, hR, hM, hN, hS, hRr, hSr⟩

/-- Joint multiplication agrees with separate multiplications. On an accepted curve of prime
modulus, for all scalars and all points of the curve, both exist; they are equal in affine
coordinates and the same point in homogeneous ones, also with the generator as the first point. -/
theorem jointMul_eq_add_scalarMul {c : Curve} (hc : c.Accepted) (hp : c.p.Prime) (j k : ℕ) :
    (∀ P Q : Affine, P.OnCurve c → Q.OnCurve c →
      ∃ M N S, PointGroup.scalarMul P j c = .ok M ∧ PointGroup.scalarMul Q k c = .ok N ∧
        PointGroup.add M N c = .ok S ∧ PointGroup.jointMul j P k Q c = .ok S) ∧
    (∀ P Q : Projective, P.OnCurve c → Q.OnCurve c →
      ∃ M N S R, PointGroup.scalarMul P j c = .ok M ∧ PointGroup.scalarMul Q k c = .ok N ∧
        PointGroup.add M N c = .ok S ∧ PointGroup.jointMul j P k Q c = .ok R ∧
        R.same S = .ok true) ∧
    ∀ P : Projective, P.OnCurve c →
      ∃ G M N S R, PointGroup.generator c = .ok G ∧ PointGroup.scalarMul G j c = .ok M ∧
        PointGroup.scalarMul P k c = .ok N ∧ PointGroup.add M N c = .ok S ∧
        Projective.jointMulGenerator j k P c = .ok R ∧ R.same S = .ok true := by
  have := Fact.mk hp
  have hk := hc.checks
  -- Stated for any two points, since the last statement is its case with the generator.
  have homogeneous {P Q : Projective} {g h : c.Point} (hP : P.Denotes c g) (hQ : Q.Denotes c h) :
      ∃ M N S R, PointGroup.scalarMul P j c = .ok M ∧ PointGroup.scalarMul Q k c = .ok N ∧
        PointGroup.add M N c = .ok S ∧ PointGroup.jointMul j P k Q c = .ok R ∧
        R.same S = .ok true := by
    obtain ⟨R, M, N, S, hR, hM, hN, hS, hRr, hSr⟩ :=
      (Projective.denotes_models hk).exists_jointMul_sum hP hQ j k
    exact ⟨M, N, S, R, hM, hN, hS, hR, hRr.same hSr⟩
  refine ⟨?_, ?_, ?_⟩
  · intro P Q hP hQ
    obtain ⟨g, hg⟩ := hP.exists_ofPoint hk
    obtain ⟨h, hh⟩ := hQ.exists_ofPoint hk
    obtain ⟨R, M, N, S, hR, hM, hN, hS, rfl, rfl⟩ :=
      (Affine.models hk).exists_jointMul_sum hg hh j k
    exact ⟨M, N, _, hM, hN, hS, hR⟩
  · intro P Q hP hQ
    obtain ⟨g, hg⟩ := hP.exists_denotes hk
    obtain ⟨h, hh⟩ := hQ.exists_denotes hk
    exact homogeneous hg hh
  · intro P hP
    obtain ⟨g, hg⟩ := hP.exists_denotes hk
    obtain ⟨G, hG, hGr⟩ := hk.exists_projective_generator
    obtain ⟨M, N, S, R, hM, hN, hS, hR, hsame⟩ := homogeneous (.inr hGr) hg
    refine ⟨G, M, N, S, R, hG, hM, hN, hS, ?_, hsame⟩
    rw [Projective.jointMulGenerator, hG, ok_bind, hR]

/-- On the curve with 13 points, seven times the generator plus nine times its opposite with
`z = 2`. -/
theorem thirteen_jointMul :
    let P : Projective := .point ⟨8, 19⟩ ⟨13, 19⟩ ⟨2, 19⟩
    P.OnCurve Curve.thirteen ∧
      ∃ G M N S R, PointGroup.generator Curve.thirteen = .ok G ∧
        PointGroup.scalarMul G 7 Curve.thirteen = .ok M ∧
        PointGroup.scalarMul P 9 Curve.thirteen = .ok N ∧
        PointGroup.add M N Curve.thirteen = .ok S ∧
        Projective.jointMulGenerator 7 9 P Curve.thirteen = .ok R ∧ R.same S = .ok true := by
  intro P
  have hP : P.OnCurve Curve.thirteen := ⟨⟨by decide, by decide, by decide⟩, by rfl⟩
  obtain ⟨-, -, hgenerator⟩ :=
    jointMul_eq_add_scalarMul Curve.accepted_thirteen Curve.prime_p_thirteen 7 9
  exact ⟨hP, hgenerator P hP⟩

end EllipticSignatures
