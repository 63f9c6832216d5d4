import EllipticSignatures.Proofs.Field.AnyModulus
import EllipticSignatures.Proofs.Point.Simulation

/-!
# Points modulo any number

No formula divides by zero: homogeneous coordinates are added without divisions, and the slopes of
affine ones have denominators that the case distinctions and the odd modulus keep from being zero.
Division multiplies with Fermat's power, whether or not it is an inverse. Modulo a number that is
not prime the result need not be a point of any curve, but its coordinates are reduced, and no
operation ends in a fault.

- `PointGroup.Closed`: no operation and no way to multiply leaves the points in question;
- `PointGroup.Closed.of_operations`: the loops inherit this from sums, doubles and opposites;
- `Affine.closed_inField`: the points with reduced coordinates are closed, on or off the curve.
-/

namespace EllipticSignatures

open FieldElement Checked

namespace PointGroup

variable {c : Curve} {G : Type} [PointGroup G] {on : G → Prop}

/-- Every operation on points that satisfy `on` gives a point that satisfies it, and no fault. -/
structure Closed (c : Curve) (on : G → Prop) : Prop where
  /-- Sums exist and satisfy `on`. -/
  add {P Q : G} : on P → on Q → ∃ R, PointGroup.add P Q c = .ok R ∧ on R
  /-- Doubles exist and satisfy `on`. -/
  double {P : G} : on P → ∃ R, PointGroup.double P c = .ok R ∧ on R
  /-- Opposites exist and satisfy `on`. -/
  negate {P : G} : on P → ∃ R, PointGroup.negate P = .ok R ∧ on R
  /-- Differences exist and satisfy `on`. -/
  sub {P Q : G} : on P → on Q → ∃ R, PointGroup.sub P Q c = .ok R ∧ on R
  /-- Multiples read from the highest bit exist and satisfy `on`. -/
  scalarMul {P : G} : on P → ∀ k, ∃ R, PointGroup.scalarMul P k c = .ok R ∧ on R
  /-- Multiples read from the lowest bit exist and satisfy `on`. -/
  ascendingMul {P : G} : on P → ∀ k, ∃ R, PointGroup.ascendingMul P k c = .ok R ∧ on R
  /-- Sums of multiples exist and satisfy `on`. -/
  multiMul {points : List G} {scalars : List ℕ} : (∀ P ∈ points, on P) →
    points.length = scalars.length → ∃ R, PointGroup.multiMul points scalars c = .ok R ∧ on R
  /-- Joint multiples exist and satisfy `on`. -/
  jointMul {P Q : G} : on P → on Q → ∀ j k, ∃ R, PointGroup.jointMul j P k Q c = .ok R ∧ on R

section Operations

variable (hidentity : on PointGroup.identity)
  (hadd : ∀ {P Q : G}, on P → on Q → ∃ R, PointGroup.add P Q c = .ok R ∧ on R)
  (hdouble : ∀ {P : G}, on P → ∃ R, PointGroup.double P c = .ok R ∧ on R)
  (hnegate : ∀ {P : G}, on P → ∃ R, PointGroup.negate P = .ok R ∧ on R)

include hidentity hadd hdouble hnegate

/-- A representation follows itself on points that the operations do not leave. -/
theorem Simulates.diagonal : Simulates c fun P Q : G => P = Q ∧ on P where
  identity := ⟨rfl, hidentity⟩
  isIdentity_eq := by
    rintro P _ ⟨rfl, -⟩
    rfl
  add := by
    rintro P Q _ _ ⟨rfl, hP⟩ ⟨rfl, hQ⟩
    obtain ⟨R, hR, hon⟩ := hadd hP hQ
    exact ⟨R, R, hR, hR, rfl, hon⟩
  double := by
    rintro P _ ⟨rfl, hP⟩
    obtain ⟨R, hR, hon⟩ := hdouble hP
    exact ⟨R, R, hR, hR, rfl, hon⟩
  negate := by
    rintro P _ ⟨rfl, hP⟩
    obtain ⟨R, hR, hon⟩ := hnegate hP
    exact ⟨R, R, hR, hR, rfl, hon⟩

/-- What sums, doubles and opposites do not leave, no way to multiply leaves. -/
theorem Closed.of_operations : Closed c on := by
  -- A loop that respects every relation between representations respects this one, which relates
  -- each point that satisfies the predicate to itself.
  have hs : Simulates c fun P Q : G => P = Q ∧ on P :=
    .diagonal hidentity hadd hdouble hnegate
  have hon {x : Checked G} (h : Related (fun P Q => P = Q ∧ on P) x x) : ∃ R, x = .ok R ∧ on R := by
    obtain ⟨R, -, hR, -, -, hR'⟩ := h
    exact ⟨R, hR, hR'⟩
  exact {
    add := hadd
    double := hdouble
    negate := hnegate
    sub := by
      intro P Q hP hQ
      obtain ⟨N, hN, hNon⟩ := hnegate hQ
      rw [PointGroup.sub, hN, ok_bind]
      exact hadd hP hNon
    scalarMul := fun hP k => hon (hs.scalarMul ⟨rfl, hP⟩ k)
    ascendingMul := fun hP k => hon (hs.ascendingMul ⟨rfl, hP⟩ k)
    multiMul := by
      intro points scalars hpoints hlength
      have hall : List.Forall₂ (fun P Q => P = Q ∧ on P) points points :=
        List.forall₂_same.mpr fun P hP => ⟨rfl, hpoints P hP⟩
      exact hon (hs.multiMul hall hlength)
    jointMul := fun hP hQ j k => hon (hs.jointMul ⟨rfl, hP⟩ ⟨rfl, hQ⟩ j k) }

end Operations

end PointGroup

/-! ## Homogeneous coordinates -/

namespace Projective

variable {c : Curve} {P Q : Projective}

/-- Reading a triple as a point keeps reduced coordinates reduced. -/
theorem inField_ofCoordinates {m : ℕ} {x y z : FieldElement} (hx : x.InField m) (hy : y.InField m)
    (hz : z.InField m) : (ofCoordinates x y z).InField m := by
  unfold ofCoordinates
  by_cases hzero : z.isZero
  · rw [if_pos hzero]
    trivial
  · rw [if_neg hzero]
    exact ⟨hx, hy, hz⟩

variable [NeZero c.p]

/-- A triple of residues has reduced coordinates. -/
theorem inField_ofCoordinates_ofZMod (x y z : ZMod c.p) :
    (ofCoordinates (ofZMod x) (ofZMod y) (ofZMod z)).InField c.p :=
  inField_ofCoordinates (inField_ofZMod x) (inField_ofZMod y) (inField_ofZMod z)

theorem InField.negate (h : P.InField c.p) : ∃ R, P.negate = .ok R ∧ R.InField c.p := by
  rcases h.parts_cases with hP | ⟨x, y, z, -, hP⟩
  · exact ⟨.infinity, by rw [Projective.negate, hP], trivial⟩
  · refine ⟨_, ?_, inField_ofCoordinates_ofZMod x (-y) z⟩
    simp [Projective.negate, hP]

theorem InField.double (hc : c.Checks) (h : P.InField c.p) :
    ∃ R, P.double c = .ok R ∧ R.InField c.p := by
  rcases h.parts_cases with hP | ⟨x, y, z, -, hP⟩
  · exact ⟨.infinity, by rw [Projective.double, hP], trivial⟩
  by_cases hy : y = 0
  · subst hy
    exact ⟨.infinity, by simp [Projective.double, hP], trivial⟩
  · exact ⟨_, double_of_parts hc hy hP, inField_ofCoordinates_ofZMod _ _ _⟩

theorem InField.add (hc : c.Checks) (hP : P.InField c.p) (hQ : Q.InField c.p) :
    ∃ R, P.add Q c = .ok R ∧ R.InField c.p := by
  rcases hP.parts_cases with hP' | ⟨x₁, y₁, z₁, -, hP'⟩
  · exact ⟨Q, by simp [Projective.add, hP'], hQ⟩
  rcases hQ.parts_cases with hQ' | ⟨x₂, y₂, z₂, -, hQ'⟩
  · exact ⟨P, by simp [Projective.add, hP', hQ'], hP⟩
  by_cases hx : x₁ * z₂ = x₂ * z₁
  swap
  · exact ⟨_, add_of_parts hx hP' hQ', inField_ofCoordinates_ofZMod _ _ _⟩
  -- The abscissas agree, so the sum is a doubling or the identity.
  by_cases hy : y₁ * z₂ = y₂ * z₁
  · obtain ⟨R, hR, hfield⟩ := hP.double hc
    refine ⟨R, ?_, hfield⟩
    rw [← hR]
    simp [Projective.add, hP', hQ', hx, hy]
  · refine ⟨.infinity, ?_, trivial⟩
    simp [Projective.add, hP', hQ', hx, hy]

/-- Triples with reduced coordinates are closed under the operations. -/
theorem closed (hc : c.Checks) : PointGroup.Closed c (InField c.p) :=
  .of_operations trivial (fun hP hQ => hP.add hc hQ) (fun hP => hP.double hc) (fun hP => hP.negate)

/-- The triple of an affine point has reduced coordinates if the point does. -/
theorem exists_ofAffine_inField {A : Affine} (h : A.InField c.p) :
    ∃ R, ofAffine A = .ok R ∧ R.InField c.p := by
  cases A with
  | infinity => exact ⟨.infinity, rfl, trivial⟩
  | point x y =>
    obtain ⟨x, rfl⟩ := h.left.exists_ofZMod
    obtain ⟨y, rfl⟩ := h.right.exists_ofZMod
    refine ⟨_, ?_, inField_ofCoordinates_ofZMod x y 1⟩
    simp [ofAffine]

omit [NeZero c.p] in
/-- Conversion finds a power of `z` to multiply with, for every modulus above one. -/
theorem InField.exists_toAffine {m : ℕ} (hm : 2 ≤ m) (h : P.InField m) :
    ∃ A, P.toAffine = .ok A ∧ A.InField m := by
  have : NeZero m := ⟨by omega⟩
  rcases h.parts_cases with hP | ⟨x, y, z, hz, hP⟩
  · exact ⟨.infinity, toAffine_of_parts_none hP, trivial⟩
  · refine ⟨.point (ofZMod (x * z ^ (m - 2))) (ofZMod (y * z ^ (m - 2))), ?_,
      inField_ofZMod _, inField_ofZMod _⟩
    simp [toAffine, hP, invert_eq_pow hm hz]

end Projective

/-! ## Affine coordinates -/

namespace Affine

variable {c : Curve} {P Q : Affine}

section Operations

variable [NeZero c.p]

theorem InField.negate (h : P.InField c.p) : ∃ R, P.negate = .ok R ∧ R.InField c.p := by
  cases P with
  | infinity => exact ⟨.infinity, rfl, trivial⟩
  | point x y =>
    obtain ⟨x, rfl⟩ := h.left.exists_ofZMod
    obtain ⟨y, rfl⟩ := h.right.exists_ofZMod
    exact ⟨_, negate_point x y, inField_ofZMod x, inField_ofZMod (-y)⟩

theorem inField_onLine (l x₁ y₁ x₂ : ZMod c.p) : (onLine l x₁ y₁ x₂).InField c.p :=
  ⟨inField_ofZMod _, inField_ofZMod _⟩

theorem InField.double (hc : c.Checks) (h : P.InField c.p) :
    ∃ R, P.double c = .ok R ∧ R.InField c.p := by
  cases P with
  | infinity => exact ⟨.infinity, rfl, trivial⟩
  | point x y =>
    obtain ⟨x, rfl⟩ := h.left.exists_ofZMod
    obtain ⟨y, rfl⟩ := h.right.exists_ofZMod
    by_cases hy : y = 0
    · subst hy
      exact ⟨.infinity, double_point_of_zero x, trivial⟩
    · exact ⟨_, double_point_eq_pow hc x hy, inField_onLine _ _ _ _⟩

theorem InField.add (hc : c.Checks) (hP : P.InField c.p) (hQ : Q.InField c.p) :
    ∃ R, P.add Q c = .ok R ∧ R.InField c.p := by
  cases P with
  | infinity => exact ⟨Q, infinity_add Q, hQ⟩
  | point x₁ y₁ =>
    cases Q with
    | infinity => exact ⟨_, add_infinity _, hP⟩
    | point x₂ y₂ =>
      obtain ⟨x₁, rfl⟩ := hP.left.exists_ofZMod
      obtain ⟨y₁, rfl⟩ := hP.right.exists_ofZMod
      obtain ⟨x₂, rfl⟩ := hQ.left.exists_ofZMod
      obtain ⟨y₂, rfl⟩ := hQ.right.exists_ofZMod
      by_cases hx : x₁ = x₂
      swap
      · exact ⟨_, add_point_eq_pow hc.two_le_p y₁ y₂ hx, inField_onLine _ _ _ _⟩
      -- Points of one abscissa are equal, or their sum is the identity.
      subst hx
      by_cases hy : y₁ = y₂
      · subst hy
        rw [add_self]
        exact hP.double hc
      · exact ⟨.infinity, add_point_of_eq x₁ hy, trivial⟩

end Operations

/-- No formula of affine coordinates divides by zero or mixes fields. On an accepted curve, of prime
modulus or not, sums, doubles, opposites, differences and all multiples of points with reduced
coordinates exist, on or off the curve and for all scalars, and have reduced coordinates. -/
theorem closed_inField (hc : c.Accepted) : PointGroup.Closed c (Affine.InField c.p) := by
  have hk := hc.checks
  have := hk.neZero_p
  exact .of_operations trivial (fun hP hQ => hP.add hk hQ) (fun hP => hP.double hk)
    (fun hP => hP.negate)

/-- Modulo 1729, two points off the curve whose abscissas differ by the zero divisor seven. -/
theorem carmichael_closed_inField :
    let P : Affine := .point ⟨0, 1729⟩ ⟨5, 1729⟩
    let Q : Affine := .point ⟨7, 1729⟩ ⟨5, 1729⟩
    ¬Curve.carmichael.p.Prime ∧ P.isOnCurve Curve.carmichael = .ok false ∧
      P.InField Curve.carmichael.p ∧ Q.InField Curve.carmichael.p ∧
      (∃ R, PointGroup.sub P Q Curve.carmichael = .ok R ∧ R.InField Curve.carmichael.p) ∧
      (∃ R, PointGroup.jointMul 11 P 6 Q Curve.carmichael = .ok R ∧
        R.InField Curve.carmichael.p) ∧
      ∃ R, PointGroup.multiMul [P, Q, P] [4, 0, 9] Curve.carmichael = .ok R ∧
        R.InField Curve.carmichael.p := by
  intro P Q
  have hP : P.InField Curve.carmichael.p := ⟨⟨rfl, by decide⟩, ⟨rfl, by decide⟩⟩
  have hQ : Q.InField Curve.carmichael.p := ⟨⟨rfl, by decide⟩, ⟨rfl, by decide⟩⟩
  have h := closed_inField Curve.accepted_carmichael
  refine ⟨by norm_num [Curve.carmichael], by rfl, hP, hQ, h.sub hP hQ, h.jointMul hP hQ 11 6,
    h.multiMul ?_ rfl⟩
  simp [hP, hQ]

end Affine

/-- The sum of multiples of the generator and of a second point exists in affine coordinates, and
its coordinates are reduced, whether or not the second point is on the curve. -/
theorem Curve.Checks.exists_jointMulGenerator_inField {c : Curve} (hc : c.Checks) {A : Affine}
    (hA : A.InField c.p) (j k : ℕ) :
    ∃ Q R S, Projective.ofAffine A = .ok Q ∧ Projective.jointMulGenerator j k Q c = .ok R ∧
      R.toAffine = .ok S ∧ S.InField c.p := by
  have := hc.neZero_p
  obtain ⟨G, hG, hGfield⟩ := Projective.exists_ofAffine_inField hc.inField_generator
  obtain ⟨Q, hQ, hQfield⟩ := Projective.exists_ofAffine_inField hA
  obtain ⟨R, hR, hRfield⟩ := (Projective.closed hc).jointMul hGfield hQfield j k
  obtain ⟨S, hS, hSfield⟩ := hRfield.exists_toAffine hc.two_le_p
  refine ⟨Q, R, S, hQ, ?_, hS, hSfield⟩
  rw [Projective.jointMulGenerator, show PointGroup.generator c = .ok G from hG, ok_bind, hR]

end EllipticSignatures
