import EllipticSignatures.Proofs.Point.RepeatedAddition

/-!
# Sums of multiples

`PointGroup.multiMul` multiplies each point of a list and adds the multiples in order, so repeated,
opposite and identity points meet every special case of addition on the way. In a group the result
is the sum of the terms, and their order does not matter.

- `PointGroup.combination`: the sum of the terms in a group;
- `PointGroup.Models.multiMul`: what `multiMul` computes represents that sum;
- `PointGroup.SumsTerms`: what it means that sums of multiples are order-independent, for the
  points and the equality of a representation;
- `multiMul_sumsTerms`: both representations have this property.
-/

namespace EllipticSignatures

namespace PointGroup

variable {G A : Type} [AddCommGroup A]

/-- The sum of the multiples of the elements that the points of the terms represent. -/
def combination (element : G → A) (terms : List (G × ℕ)) : A :=
  (terms.map fun t => t.2 • element t.1).sum

@[simp]
theorem combination_nil (element : G → A) : combination element [] = 0 := rfl

@[simp]
theorem combination_cons (element : G → A) (t : G × ℕ) (terms : List (G × ℕ)) :
    combination element (t :: terms) = t.2 • element t.1 + combination element terms := by
  rw [combination, List.map_cons, List.sum_cons, combination]

theorem combination_append (element : G → A) (terms terms' : List (G × ℕ)) :
    combination element (terms ++ terms') =
      combination element terms + combination element terms' := by
  rw [combination, List.map_append, List.sum_append, combination, combination]

/-- The sum does not depend on the order of its terms. -/
theorem combination_perm (element : G → A) {terms terms' : List (G × ℕ)}
    (h : terms.Perm terms') : combination element terms = combination element terms' :=
  (h.map _).sum_eq

variable [PointGroup G] {c : Curve}

/-- On the points that satisfy `on`, a sum of multiples is the sum of its terms in any order and
grouping, where `same` is the equality of points. -/
structure SumsTerms (c : Curve) (on : G → Prop) (same : G → G → Prop) : Prop where
  /-- A sum of multiples exists and satisfies `on`. -/
  closed {points : List G} {scalars : List ℕ} : (∀ P ∈ points, on P) →
    points.length = scalars.length → ∃ R, multiMul points scalars c = .ok R ∧ on R
  /-- The sum of one term is the multiple of its point. -/
  single {P : G} : on P → ∀ k, ∃ R S, multiMul [P] [k] c = .ok R ∧ scalarMul P k c = .ok S ∧
    same R S
  /-- Permuting points and scalars together gives the same point. -/
  perm {points points' : List G} {scalars scalars' : List ℕ} : (∀ P ∈ points, on P) →
    points.length = scalars.length → points'.length = scalars'.length →
    (points.zip scalars).Perm (points'.zip scalars') →
    ∃ R S, multiMul points scalars c = .ok R ∧ multiMul points' scalars' c = .ok S ∧ same R S
  /-- The sum over appended lists is the sum of the sums over each. -/
  append {points points' : List G} {scalars scalars' : List ℕ} : (∀ P ∈ points, on P) →
    (∀ P ∈ points', on P) → points.length = scalars.length → points'.length = scalars'.length →
    ∃ R M N S, multiMul (points ++ points') (scalars ++ scalars') c = .ok R ∧
      multiMul points scalars c = .ok M ∧ multiMul points' scalars' c = .ok N ∧
      add M N c = .ok S ∧ same R S
  /-- The sum of two terms is the joint multiple. -/
  pair {P Q : G} : on P → on Q → ∀ j k, ∃ R S, multiMul [P, Q] [j, k] c = .ok R ∧
    jointMul j P k Q c = .ok S ∧ same R S

namespace Models

variable {r : G → A → Prop} {element : G → A}

/-- Adding multiples in order to a representative of `a` adds their sum to `a`. -/
theorem foldlM_add (h : Models c r) {terms : List (G × ℕ)}
    (hterms : ∀ t ∈ terms, ∃ M, PointGroup.scalarMul t.1 t.2 c = .ok M ∧
      r M (t.2 • element t.1)) {acc : G} {a : A} (hacc : r acc a) :
    ∃ R, terms.foldlM (fun acc (P, k) => do
        PointGroup.add acc (← PointGroup.scalarMul P k c) c) acc = .ok R ∧
      r R (a + combination element terms) := by
  induction terms generalizing acc a with
  | nil => exact ⟨acc, rfl, by simpa using hacc⟩
  | cons t terms ih =>
    obtain ⟨P, k⟩ := t
    obtain ⟨hterm, hrest⟩ := List.forall_mem_cons.mp hterms
    obtain ⟨M, hM, hMr⟩ := hterm
    obtain ⟨S, hS, hSr⟩ := h.add hacc hMr
    obtain ⟨R, hR, hRr⟩ := ih hrest hSr
    refine ⟨R, ?_, by rwa [combination_cons, ← add_assoc]⟩
    simp only [List.foldlM_cons, hM, hS, ok_bind, hR]

/-- A sum of multiples represents the sum of its terms. -/
theorem multiMul (h : Models c r) {on : G → Prop}
    (hmul : ∀ {P}, on P → ∀ k, ∃ M, PointGroup.scalarMul P k c = .ok M ∧ r M (k • element P))
    {points : List G} {scalars : List ℕ} (hpoints : ∀ P ∈ points, on P)
    (hlength : points.length = scalars.length) :
    ∃ R, PointGroup.multiMul points scalars c = .ok R ∧
      r R (combination element (points.zip scalars)) := by
  rw [PointGroup.multiMul, if_pos hlength, ← zero_add (combination element _)]
  apply h.foldlM_add _ h.identity
  intro t ht
  exact hmul (hpoints t.1 (List.of_mem_zip ht).left) t.2

/-- A representation that follows a group sums multiples in any order, if representatives of one
element are the same point. Joint multiplication may leave another representative of the sum. -/
theorem sumsTerms (h : Models c r) (element : G → A) {on : G → Prop} {same : G → G → Prop}
    (hmul : ∀ {P}, on P → ∀ k, ∃ M, PointGroup.scalarMul P k c = .ok M ∧ r M (k • element P))
    (hon : ∀ {R a}, r R a → on R) (hsame : ∀ {R S a}, r R a → r S a → same R S)
    (hjoint : ∀ {P Q}, on P → on Q → ∀ j k, ∃ S, PointGroup.jointMul j P k Q c = .ok S ∧
      ∀ {R}, r R (j • element P + k • element Q) → same R S) :
    SumsTerms c on same where
  closed hpoints hlength := by
    obtain ⟨R, hR, hRr⟩ := h.multiMul hmul hpoints hlength
    exact ⟨R, hR, hon hRr⟩
  single {P} hP k := by
    have hpoints : ∀ R ∈ [P], on R := by simp [hP]
    have hlength : [P].length = [k].length := rfl
    obtain ⟨R, hR, hRr⟩ := h.multiMul hmul hpoints hlength
    obtain ⟨S, hS, hSr⟩ := hmul hP k
    exact ⟨R, S, hR, hS, hsame hRr (by simpa using hSr)⟩
  perm {points points' scalars scalars'} hpoints hlength hlength' hperm := by
    -- Permuting the pairs permutes the points.
    have hmem : points.Perm points' := by
      have hfirst := hperm.map Prod.fst
      rwa [List.map_fst_zip hlength.le, List.map_fst_zip hlength'.le] at hfirst
    have hpoints' : ∀ P ∈ points', on P := by
      intro P hP
      exact hpoints P (hmem.mem_iff.mpr hP)
    obtain ⟨R, hR, hRr⟩ := h.multiMul hmul hpoints hlength
    obtain ⟨S, hS, hSr⟩ := h.multiMul hmul hpoints' hlength'
    rw [combination_perm element hperm] at hRr
    exact ⟨R, S, hR, hS, hsame hRr hSr⟩
  append {points points' scalars scalars'} hpoints hpoints' hlength hlength' := by
    have hall : ∀ P ∈ points ++ points', on P := List.forall_mem_append.mpr ⟨hpoints, hpoints'⟩
    have hlengths : (points ++ points').length = (scalars ++ scalars').length := by
      rw [List.length_append, List.length_append, hlength, hlength']
    obtain ⟨R, hR, hRr⟩ := h.multiMul hmul hall hlengths
    obtain ⟨M, hM, hMr⟩ := h.multiMul hmul hpoints hlength
    obtain ⟨N, hN, hNr⟩ := h.multiMul hmul hpoints' hlength'
    obtain ⟨S, hS, hSr⟩ := h.add hMr hNr
    rw [List.zip_append hlength, combination_append] at hRr
    exact ⟨R, M, N, S, hR, hM, hN, hS, hsame hRr hSr⟩
  pair {P Q} hP hQ j k := by
    have hpoints : ∀ R ∈ [P, Q], on R := by simp [hP, hQ]
    have hlength : [P, Q].length = [j, k].length := rfl
    obtain ⟨R, hR, hRr⟩ := h.multiMul hmul hpoints hlength
    obtain ⟨S, hS, hjointSame⟩ := hjoint hP hQ j k
    exact ⟨R, S, hR, hS, hjointSame (by simpa using hRr)⟩

end Models

end PointGroup

open PointGroup

/-- Sums of multiples do not depend on the order of their terms. On an accepted curve of prime
modulus, for all lists of points of the curve and as many scalars, the sum exists and is on the
curve; over one term it is the multiple; permuting points and scalars together does not change it;
over appended lists it is the sum of both sums; and over two terms it is their joint multiple. The
results are equal in affine coordinates and the same point in homogeneous ones. -/
theorem multiMul_sumsTerms {c : Curve} (hc : c.Accepted) (hp : c.p.Prime) :
    SumsTerms c (Affine.OnCurve c) (fun P Q => P = Q) ∧
    SumsTerms c (Projective.OnCurve c) (fun P Q => P.same Q = .ok true) := by
  have := Fact.mk hp
  have hk := hc.checks
  constructor
  · choose! element helement using fun P (hP : Affine.OnCurve c P) => hP.exists_ofPoint hk
    apply (Affine.models hk).sumsTerms element
    · intro P hP k
      exact (Affine.models hk).scalarMul (helement P hP) k
    · rintro _ g rfl
      exact Affine.onCurve_ofPoint hk g
    · rintro R S g rfl rfl
      rfl
    · intro P Q hP hQ j k
      obtain ⟨S, hS, rfl⟩ := (Affine.models hk).jointMul (helement P hP) (helement Q hQ) j k
      exact ⟨_, hS, id⟩
  -- Several triples denote one point, so results are compared by what they denote.
  · choose! element helement using fun P (hP : Projective.OnCurve c P) => hP.exists_denotes hk
    apply (Projective.models hk).sumsTerms element
    · intro P hP k
      exact (helement P hP).scalarMul hk k
    · intro R g hR
      exact hR.onCurve hk
    · intro R S g hR hS
      exact Projective.Denotes.same (.inr hR) (.inr hS)
    · intro P Q hP hQ j k
      obtain ⟨S, hS, hSr⟩ :=
        (Projective.denotes_models hk).jointMul (helement P hP) (helement Q hQ) j k
      exact ⟨S, hS, fun hR => Projective.Denotes.same (.inr hR) hSr⟩

/-- On the curve with 13 points, a list that repeats the generator with `z = 2` and holds its
opposite and a triple with `z = 0` of other fields. -/
theorem thirteen_sumsTerms :
    let P : Projective := .point ⟨8, 19⟩ ⟨6, 19⟩ ⟨2, 19⟩
    let N : Projective := .point ⟨4, 19⟩ ⟨16, 19⟩ ⟨1, 19⟩
    let Z : Projective := .point ⟨1, 19⟩ ⟨5, 7⟩ ⟨0, 3⟩
    P.OnCurve Curve.thirteen ∧ N.OnCurve Curve.thirteen ∧ Z.OnCurve Curve.thirteen ∧
      (∃ R, multiMul [P, N, Z, P] [5, 9, 2, 4] Curve.thirteen = .ok R ∧
        R.OnCurve Curve.thirteen) ∧
      (∃ R S, multiMul [P, N, Z, P] [5, 9, 2, 4] Curve.thirteen = .ok R ∧
        multiMul [N, P, P, Z] [9, 4, 5, 2] Curve.thirteen = .ok S ∧ R.same S = .ok true) ∧
      ∃ R S, multiMul [Z, P] [7, 18] Curve.thirteen = .ok R ∧
        jointMul 7 Z 18 P Curve.thirteen = .ok S ∧ R.same S = .ok true := by
  intro P N Z
  have hP : P.OnCurve Curve.thirteen := ⟨⟨by decide, by decide, by decide⟩, by rfl⟩
  have hN : N.OnCurve Curve.thirteen := ⟨⟨by decide, by decide, by decide⟩, by rfl⟩
  have hZ : Z.OnCurve Curve.thirteen := ⟨⟨by decide, by decide, by decide⟩, by rfl⟩
  have hall : ∀ R ∈ [P, N, Z, P], R.OnCurve Curve.thirteen := by simp [hP, hN, hZ]
  obtain ⟨-, homogeneous⟩ := multiMul_sumsTerms Curve.accepted_thirteen Curve.prime_p_thirteen
  exact ⟨hP, hN, hZ, homogeneous.closed hall rfl, homogeneous.perm hall rfl rfl (by decide),
    homogeneous.pair hZ hP 7 18⟩

end EllipticSignatures
