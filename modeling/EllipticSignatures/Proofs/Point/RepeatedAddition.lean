import EllipticSignatures.Proofs.Point.JointMultiplication

/-!
# Multiples are repeated sums

`PointGroup.addCopies` adds a point to itself one copy at a time. On the points of an accepted curve
of prime modulus, multiplication from the highest bit of the scalar does the same, whatever points
the accumulator passes on the way.

- `PointGroup.RepeatsAddition`: what it means that multiplication is repeated addition, for the
  points and the equality of a representation;
- `scalarMul_repeatsAddition`: both representations have this property, the homogeneous one up to
  the equality that `Projective.same` decides;
- `ascendingMul_eq_scalarMul`: multiplication from the lowest bit gives the same multiples.
-/

namespace EllipticSignatures

namespace PointGroup

variable {G A : Type} [PointGroup G] [AddCommGroup A] {c : Curve}

/-- The sum of `k` copies of a point, each one added to the sum of those before it. -/
def addCopies (P : G) (c : Curve) : ℕ → Checked G
  | 0 => .ok identity
  | k + 1 => do add (← addCopies P c k) P c

/-- On the points that satisfy `on`, multiplication by scalars is repeated addition, where `same` is
the equality of points. -/
structure RepeatsAddition (c : Curve) (on : G → Prop) (same : G → G → Prop) : Prop where
  /-- A multiple is the sum of as many copies of the point. -/
  copies {P : G} : on P → ∀ k, ∃ R S, scalarMul P k c = .ok R ∧ addCopies P c k = .ok S ∧
    same R S ∧ on R
  /-- A multiple by a sum is the sum of the multiples. -/
  sum {P : G} : on P → ∀ j k, ∃ R M N S, scalarMul P (j + k) c = .ok R ∧
    scalarMul P j c = .ok M ∧ scalarMul P k c = .ok N ∧ add M N c = .ok S ∧ same R S
  /-- A multiple by a product is the multiple of a multiple. -/
  product {P : G} : on P → ∀ j k, ∃ R M S, scalarMul P (j * k) c = .ok R ∧
    scalarMul P j c = .ok M ∧ scalarMul M k c = .ok S ∧ same R S
  /-- Multiples of a point that `n` annihilates depend on the scalar modulo `n` only. -/
  periodic {P Z : G} {n : ℕ} : on P → scalarMul P n c = .ok Z → isIdentity Z → ∀ {j k},
    j ≡ k [MOD n] → ∃ R S, scalarMul P j c = .ok R ∧ scalarMul P k c = .ok S ∧ same R S

namespace Models

variable {r : G → A → Prop} {P : G} {a : A}

/-- Adding copies represents the multiple. -/
theorem addCopies (h : Models c r) (hP : r P a) (k : ℕ) :
    ∃ S, PointGroup.addCopies P c k = .ok S ∧ r S (k • a) := by
  induction k with
  | zero =>
    rw [zero_smul]
    exact ⟨PointGroup.identity, rfl, h.identity⟩
  | succ k ih =>
    obtain ⟨S, hS, hSr⟩ := ih
    obtain ⟨T, hT, hTr⟩ := h.add hSr hP
    refine ⟨T, ?_, by rwa [succ_nsmul]⟩
    rw [PointGroup.addCopies, hS, ok_bind, hT]

/-- An element is annihilated by `n` if its representative is. -/
theorem nsmul_eq_zero (h : Models c r) (hP : r P a) {n : ℕ} {Z : G}
    (hZ : PointGroup.scalarMul P n c = .ok Z) (hzero : isIdentity Z) : n • a = 0 := by
  obtain ⟨R, hR, hRr⟩ := h.scalarMul hP n
  obtain rfl := Except.ok.inj (hR.symm.trans hZ)
  exact h.eq_zero hRr hzero

/-- A representation that follows a group multiplies by repeated addition, if representatives of
one element are the same point and multiples do not leave the points in question. -/
theorem repeatsAddition (h : Models c r) {on : G → Prop} {same : G → G → Prop}
    (hrep : ∀ {P}, on P → ∃ a, r P a) (hsame : ∀ {P Q a}, r P a → r Q a → same P Q)
    (hclosed : ∀ {P R k}, on P → PointGroup.scalarMul P k c = .ok R → on R) :
    RepeatsAddition c on same where
  copies {P} hP k := by
    obtain ⟨a, ha⟩ := hrep hP
    obtain ⟨R, hR, hRr⟩ := h.scalarMul ha k
    obtain ⟨S, hS, hSr⟩ := h.addCopies ha k
    exact ⟨R, S, hR, hS, hsame hRr hSr, hclosed hP hR⟩
  sum {P} hP j k := by
    obtain ⟨a, ha⟩ := hrep hP
    obtain ⟨R, hR, hRr⟩ := h.scalarMul ha (j + k)
    obtain ⟨M, hM, hMr⟩ := h.scalarMul ha j
    obtain ⟨N, hN, hNr⟩ := h.scalarMul ha k
    obtain ⟨S, hS, hSr⟩ := h.add hMr hNr
    rw [← add_nsmul] at hSr
    exact ⟨R, M, N, S, hR, hM, hN, hS, hsame hRr hSr⟩
  product {P} hP j k := by
    obtain ⟨a, ha⟩ := hrep hP
    obtain ⟨R, hR, hRr⟩ := h.scalarMul ha (j * k)
    obtain ⟨M, hM, hMr⟩ := h.scalarMul ha j
    obtain ⟨S, hS, hSr⟩ := h.scalarMul hMr k
    rw [smul_smul, mul_comm] at hSr
    exact ⟨R, M, S, hR, hM, hS, hsame hRr hSr⟩
  periodic {P Z n} hP hZ hzero j k hjk := by
    obtain ⟨a, ha⟩ := hrep hP
    obtain ⟨R, hR, hRr⟩ := h.scalarMul ha j
    obtain ⟨S, hS, hSr⟩ := h.scalarMul ha k
    have hn := h.nsmul_eq_zero ha hZ hzero
    -- Both scalars leave the same remainder.
    rw [nsmul_eq_mod_nsmul j hn, hjk, ← nsmul_eq_mod_nsmul k hn] at hRr
    exact ⟨R, S, hR, hS, hsame hRr hSr⟩

end Models

end PointGroup

open PointGroup

section Points

variable {c : Curve} [Fact c.p.Prime]

/-- A multiple of a point on the curve is on the curve. -/
theorem Affine.OnCurve.scalarMul {P R : Affine} (h : P.OnCurve c) (hc : c.Checks) {k : ℕ}
    (hR : PointGroup.scalarMul P k c = .ok R) : R.OnCurve c := by
  obtain ⟨g, rfl⟩ := h.exists_ofPoint hc
  rw [Affine.scalarMul_ofPoint hc, Except.ok.injEq] at hR
  subst hR
  exact Affine.onCurve_ofPoint hc _

namespace Projective

variable {P R : Projective} {g : c.Point}

/-- A multiple has coordinates in the field of the curve, also that of a triple with `z = 0` whose
other coordinates are not. -/
theorem Denotes.scalarMul (h : P.Denotes c g) (hc : c.Checks) (k : ℕ) :
    ∃ R, PointGroup.scalarMul P k c = .ok R ∧ R.Represents c (Affine.ofPoint (k • g)) := by
  rcases h with ⟨hnone, rfl⟩ | h
  · rw [nsmul_zero, Affine.ofPoint_zero]
    exact ⟨.infinity, if_pos (Option.isNone_iff_eq_none.mpr hnone), represents_infinity⟩
  · exact (models hc).scalarMul h k

/-- A multiple of a point on the curve is on the curve. -/
theorem OnCurve.scalarMul (h : P.OnCurve c) (hc : c.Checks) {k : ℕ}
    (hR : PointGroup.scalarMul P k c = .ok R) : R.OnCurve c := by
  obtain ⟨g, hg⟩ := h.exists_denotes hc
  obtain ⟨S, hS, hSr⟩ := hg.scalarMul hc k
  obtain rfl := Except.ok.inj (hS.symm.trans hR)
  exact hSr.onCurve hc

end Projective

end Points

/-- Scalar multiplication is repeated addition. On an accepted curve of prime modulus, for all
points of the curve and all scalars, a multiple exists, is on the curve and is the sum of as many
copies of the point; multiples by sums and products of scalars are sums of multiples and multiples
of multiples; and if `n` annihilates the point, only the scalar modulo `n` matters. The results are
equal in affine coordinates and the same point in homogeneous ones. -/
theorem scalarMul_repeatsAddition {c : Curve} (hc : c.Accepted) (hp : c.p.Prime) :
    RepeatsAddition c (Affine.OnCurve c) (fun P Q => P = Q) ∧
    RepeatsAddition c (Projective.OnCurve c) (fun P Q => P.same Q = .ok true) := by
  have := Fact.mk hp
  have hk := hc.checks
  constructor
  · apply (Affine.models hk).repeatsAddition
    · intro P hP
      exact hP.exists_ofPoint hk
    · rintro P Q g rfl rfl
      rfl
    · intro P R k hP
      exact hP.scalarMul hk
  · apply (Projective.denotes_models hk).repeatsAddition
    · intro P hP
      exact hP.exists_denotes hk
    · intro P Q g hP hQ
      exact hP.same hQ
    · intro P R k hP
      exact hP.scalarMul hk

/-- On the curve with 13 points, a triple with `z = 2`: eighteen times the point is the sum of
eighteen copies, and what five times the point is as well. -/
theorem thirteen_repeatsAddition :
    let P : Projective := .point ⟨8, 19⟩ ⟨13, 19⟩ ⟨2, 19⟩
    P.OnCurve Curve.thirteen ∧
      (∃ R S, scalarMul P 18 Curve.thirteen = .ok R ∧ addCopies P Curve.thirteen 18 = .ok S ∧
        R.same S = .ok true ∧ R.OnCurve Curve.thirteen) ∧
      ∃ R S, scalarMul P 18 Curve.thirteen = .ok R ∧ scalarMul P 5 Curve.thirteen = .ok S ∧
        R.same S = .ok true := by
  intro P
  have hP : P.OnCurve Curve.thirteen := ⟨⟨by decide, by decide, by decide⟩, by rfl⟩
  have hzero : scalarMul P 13 Curve.thirteen = .ok .infinity := by rfl
  obtain ⟨-, homogeneous⟩ :=
    scalarMul_repeatsAddition Curve.accepted_thirteen Curve.prime_p_thirteen
  exact ⟨hP, homogeneous.copies hP 18, homogeneous.periodic hP hzero rfl (by decide)⟩

/-- Multiplication from the lowest bit agrees with multiplication from the highest. On an accepted
curve of prime modulus, for all points of the curve and all scalars, both exist; they are equal in
affine coordinates and the same point in homogeneous ones. -/
theorem ascendingMul_eq_scalarMul {c : Curve} (hc : c.Accepted) (hp : c.p.Prime) (k : ℕ) :
    (∀ P : Affine, P.OnCurve c →
      ∃ R, ascendingMul P k c = .ok R ∧ scalarMul P k c = .ok R) ∧
    ∀ P : Projective, P.OnCurve c →
      ∃ R S, ascendingMul P k c = .ok R ∧ scalarMul P k c = .ok S ∧ R.same S = .ok true := by
  have := Fact.mk hp
  have hk := hc.checks
  constructor
  · intro P hP
    obtain ⟨g, hg⟩ := hP.exists_ofPoint hk
    obtain ⟨R, hR, rfl⟩ := (Affine.models hk).ascendingMul hg k
    obtain ⟨S, hS, rfl⟩ := (Affine.models hk).scalarMul hg k
    exact ⟨_, hR, hS⟩
  · intro P hP
    obtain ⟨g, hg⟩ := hP.exists_denotes hk
    obtain ⟨R, hR, hRr⟩ := (Projective.denotes_models hk).ascendingMul hg k
    obtain ⟨S, hS, hSr⟩ := (Projective.denotes_models hk).scalarMul hg k
    exact ⟨R, S, hR, hS, hRr.same hSr⟩

/-- On the curve with 13 points, a triple with `z = 0` and coordinates of other fields, which is
left as it is by the scalar one, and a triple with `z = 2`, whose powers pass the identity. -/
theorem thirteen_ascendingMul :
    let Z : Projective := .point ⟨1, 19⟩ ⟨5, 7⟩ ⟨0, 3⟩
    let P : Projective := .point ⟨8, 19⟩ ⟨13, 19⟩ ⟨2, 19⟩
    Z.OnCurve Curve.thirteen ∧ P.OnCurve Curve.thirteen ∧
      (∃ R S, ascendingMul Z 1 Curve.thirteen = .ok R ∧ scalarMul Z 1 Curve.thirteen = .ok S ∧
        R.same S = .ok true) ∧
      ∃ R S, ascendingMul P 29 Curve.thirteen = .ok R ∧ scalarMul P 29 Curve.thirteen = .ok S ∧
        R.same S = .ok true := by
  intro Z P
  have hZ : Z.OnCurve Curve.thirteen := ⟨⟨by decide, by decide, by decide⟩, by rfl⟩
  have hP : P.OnCurve Curve.thirteen := ⟨⟨by decide, by decide, by decide⟩, by rfl⟩
  obtain ⟨-, one⟩ := ascendingMul_eq_scalarMul Curve.accepted_thirteen Curve.prime_p_thirteen 1
  obtain ⟨-, many⟩ := ascendingMul_eq_scalarMul Curve.accepted_thirteen Curve.prime_p_thirteen 29
  exact ⟨hZ, hP, one Z hZ, many P hP⟩

end EllipticSignatures
