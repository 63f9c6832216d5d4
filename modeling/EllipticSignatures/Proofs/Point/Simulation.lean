import EllipticSignatures.Point.Multiplication
import EllipticSignatures.Proofs.Point.Projective

/-!
# Homogeneous coordinates simulate affine ones

`PointGroup.Simulates c r` says that one representation of points follows another along a relation
`r`: related operands have related sums, doubles and opposites. No group is involved, so the points
need not lie on the curve. Each way to multiply then keeps points related (`Simulates.scalarMul`,
`Simulates.ascendingMul`, `Simulates.multiMul`, `Simulates.jointMul`): the induction follows the
loop, and a step is two operations on related accumulators.

The main result is `Projective.toAffine_simulates`: converting the result of an operation on triples
gives the result of the operation on the converted operands.
-/

namespace EllipticSignatures

open Checked (Related)

/-- The operations of `G` on the curve follow those of `H` along `r`. -/
structure PointGroup.Simulates (c : Curve) {G H : Type} [PointGroup G] [PointGroup H]
    (r : G → H → Prop) : Prop where
  /-- The identities are related. -/
  identity : r PointGroup.identity PointGroup.identity
  /-- Related points are the identity together. -/
  isIdentity_eq {P : G} {A : H} : r P A → PointGroup.isIdentity P = PointGroup.isIdentity A
  /-- Sums of related points are related. -/
  add {P Q : G} {A B : H} : r P A → r Q B → Related r (PointGroup.add P Q c) (PointGroup.add A B c)
  /-- Doubles of related points are related. -/
  double {P : G} {A : H} : r P A → Related r (PointGroup.double P c) (PointGroup.double A c)
  /-- Opposites of related points are related. -/
  negate {P : G} {A : H} : r P A → Related r (PointGroup.negate P) (PointGroup.negate A)

namespace PointGroup.Simulates

variable {c : Curve} {G H : Type} [PointGroup G] [PointGroup H] {r : G → H → Prop}
  {P Q : G} {A B : H}

/-- Multiplication from the highest bit keeps points related. -/
theorem scalarMul (h : Simulates c r) (hP : r P A) (k : ℕ) :
    Related r (PointGroup.scalarMul P k c) (PointGroup.scalarMul A k c) := by
  rw [PointGroup.scalarMul, PointGroup.scalarMul, h.isIdentity_eq hP]
  by_cases hzero : PointGroup.isIdentity A
  · rw [if_pos hzero, if_pos hzero]
    exact .ok h.identity
  rw [if_neg hzero, if_neg hzero]
  apply Bits.descend_related _ h.identity
  intro i acc acc' hacc
  apply (h.double hacc).bind
  intro D D' hD
  -- A zero bit leaves the doubles, a one bit adds the multiplied points.
  cases k.testBit i
  · exact .ok hD
  · exact h.add hD hP

/-- The loop from the lowest bit keeps the accumulators and the doublings related. -/
theorem ascend (h : Simulates c r) (k : ℕ) (positions : List ℕ) {acc power : G} {acc' power' : H}
    (hacc : r acc acc') (hpower : r power power') :
    Related r (PointGroup.ascend k c positions acc power)
      (PointGroup.ascend k c positions acc' power') := by
  induction positions generalizing acc power acc' power' with
  | nil => exact .ok hacc
  | cons i positions ih =>
    -- Whatever the bit adds, the power is doubled and the remaining positions are taken.
    have hrest {S : G} {S' : H} (hS : r S S') : Related r
        (PointGroup.double power c >>= fun D => PointGroup.ascend k c positions S D)
        (PointGroup.double power' c >>= fun D => PointGroup.ascend k c positions S' D) :=
      (h.double hpower).bind fun D D' hD => ih hS hD
    rw [PointGroup.ascend, PointGroup.ascend]
    cases k.testBit i
    · exact hrest hacc
    · exact (h.add hacc hpower).bind fun S S' hS => hrest hS

/-- Multiplication from the lowest bit keeps points related. -/
theorem ascendingMul (h : Simulates c r) (hP : r P A) (k : ℕ) :
    Related r (PointGroup.ascendingMul P k c) (PointGroup.ascendingMul A k c) := by
  rw [PointGroup.ascendingMul, PointGroup.ascendingMul]
  by_cases hzero : k = 0
  · rw [if_pos hzero, if_pos hzero]
    exact .ok h.identity
  by_cases hone : k = 1
  · rw [if_neg hzero, if_neg hzero, if_pos hone, if_pos hone]
    exact .ok hP
  · rw [if_neg hzero, if_neg hzero, if_neg hone, if_neg hone]
    exact h.ascend k _ h.identity hP

/-- Adding multiples in order keeps the sums related. -/
theorem foldlM_add (h : Simulates c r) {points : List G} {images : List H}
    (hpoints : List.Forall₂ r points images) (scalars : List ℕ) {acc : G} {acc' : H}
    (hacc : r acc acc') :
    Related r
      ((points.zip scalars).foldlM (fun acc (P, k) => do
        PointGroup.add acc (← PointGroup.scalarMul P k c) c) acc)
      ((images.zip scalars).foldlM (fun acc (A, k) => do
        PointGroup.add acc (← PointGroup.scalarMul A k c) c) acc') := by
  induction hpoints generalizing scalars acc acc' with
  | nil => exact .ok hacc
  | cons hP _ ih =>
    cases scalars with
    | nil => exact .ok hacc
    | cons k scalars =>
      rw [List.zip_cons_cons, List.zip_cons_cons, List.foldlM_cons, List.foldlM_cons]
      have hsum := (h.scalarMul hP k).bind fun M M' hM => h.add hacc hM
      exact hsum.bind fun S S' hS => ih scalars hS

/-- Sums of multiples of related points are related. -/
theorem multiMul (h : Simulates c r) {points : List G} {images : List H}
    (hpoints : List.Forall₂ r points images) {scalars : List ℕ}
    (hlength : points.length = scalars.length) :
    Related r (PointGroup.multiMul points scalars c) (PointGroup.multiMul images scalars c) := by
  rw [PointGroup.multiMul, PointGroup.multiMul, if_pos hlength,
    if_pos (hpoints.length_eq.symm.trans hlength)]
  exact h.foldlM_add hpoints scalars h.identity

/-- Joint multiplication keeps points related. -/
theorem jointMul (h : Simulates c r) (hP : r P A) (hQ : r Q B) (j k : ℕ) :
    Related r (PointGroup.jointMul j P k Q c) (PointGroup.jointMul j A k B c) := by
  rw [PointGroup.jointMul, PointGroup.jointMul]
  apply (h.add hP hQ).bind
  intro S S' hS
  apply Bits.descend_related _ h.identity
  intro i acc acc' hacc
  apply (h.double hacc).bind
  intro D D' hD
  -- The two bits tell which of the points is added, and each comes with its image.
  cases j.testBit i <;> cases k.testBit i
  · exact .ok hD
  · exact h.add hD hQ
  · exact h.add hD hP
  · exact h.add hD hS

end PointGroup.Simulates

namespace Projective

variable {c : Curve} [Fact c.p.Prime] {P : Projective} {A : Affine}

/-- A triple is the identity iff the point that it stands for is. -/
theorem Represents.isInfinity_eq (h : Represents c P A) : P.isInfinity = A.isInfinity := by
  rcases h.cases with ⟨hP, rfl⟩ | ⟨x, y, z, -, hP, rfl⟩
  · simp [isInfinity, hP, Affine.isInfinity]
  · simp [isInfinity, hP, Affine.isInfinity]

/-- Homogeneous coordinates follow affine ones, on or off the curve. -/
theorem simulates (hc : c.Checks) : PointGroup.Simulates c (Represents c) where
  identity := represents_infinity
  isIdentity_eq h := h.isInfinity_eq
  add hP hQ := hP.add hc hQ
  double hP := hP.double hc
  negate hP := hP.negate

/-- Converting the triples of a list gives the points that they stand for. -/
theorem exists_mapM_toAffine {points : List Projective} (h : ∀ P ∈ points, P.InField c.p) :
    ∃ images, points.mapM toAffine = .ok images ∧
      List.Forall₂ (Represents c) points images := by
  induction points with
  | nil => exact ⟨[], rfl, .nil⟩
  | cons P points ih =>
    obtain ⟨hP, hrest⟩ := List.forall_mem_cons.mp h
    obtain ⟨A, hA⟩ := hP.exists_represents
    obtain ⟨images, himages, hall⟩ := ih hrest
    refine ⟨A :: images, ?_, .cons hA hall⟩
    rw [List.mapM_cons, hA.toAffine_eq, ok_bind, himages, ok_bind, pure_eq_ok]

omit [Fact c.p.Prime] in
/-- Converting a triple that stands for a computed point gives that point. -/
theorem exists_toAffine_of_related {x : Checked Projective} {y : Checked Affine}
    (h : Related (Represents c) x y) : ∃ S, (x >>= toAffine) = .ok S ∧ y = .ok S := by
  obtain ⟨R, S, rfl, rfl, hR⟩ := h
  exact ⟨S, hR.toAffine_eq, rfl⟩

end Projective

/-- Operations on triples are operations on the affine points that they stand for. On an accepted
curve of prime modulus, for all triples with reduced coordinates, on or off the curve and with any
`z`, sums, doubles, opposites and all multiples exist in both representations, and converting the
result on triples gives the result on the converted operands. Lists of different lengths are the
same fault in both. -/
theorem Projective.toAffine_simulates {c : Curve} (hc : c.Accepted) (hp : c.p.Prime)
    {P Q : Projective} (hP : P.InField c.p) (hQ : Q.InField c.p) :
    ∃ A B, P.toAffine = .ok A ∧ Q.toAffine = .ok B ∧
      (∃ S, (P.add Q c >>= toAffine) = .ok S ∧ A.add B c = .ok S) ∧
      (∃ S, (P.double c >>= toAffine) = .ok S ∧ A.double c = .ok S) ∧
      (∃ S, (P.negate >>= toAffine) = .ok S ∧ A.negate = .ok S) ∧
      (∀ k, ∃ S, (PointGroup.scalarMul P k c >>= toAffine) = .ok S ∧
        PointGroup.scalarMul A k c = .ok S) ∧
      (∀ k, ∃ S, (PointGroup.ascendingMul P k c >>= toAffine) = .ok S ∧
        PointGroup.ascendingMul A k c = .ok S) ∧
      (∀ j k, ∃ S, (PointGroup.jointMul j P k Q c >>= toAffine) = .ok S ∧
        PointGroup.jointMul j A k B c = .ok S) ∧
      ∀ points scalars, (∀ R ∈ points, Projective.InField c.p R) →
        ∃ images, points.mapM toAffine = .ok images ∧
          (points.length = scalars.length →
            ∃ S, (PointGroup.multiMul points scalars c >>= toAffine) = .ok S ∧
              PointGroup.multiMul images scalars c = .ok S) ∧
          (points.length ≠ scalars.length →
            PointGroup.multiMul points scalars c = .error .lengthMismatch ∧
              PointGroup.multiMul images scalars c = .error .lengthMismatch) := by
  have := Fact.mk hp
  have hs := simulates hc.checks
  obtain ⟨A, hA⟩ := hP.exists_represents
  obtain ⟨B, hB⟩ := hQ.exists_represents
  refine ⟨A, B, hA.toAffine_eq, hB.toAffine_eq, exists_toAffine_of_related (hs.add hA hB),
    exists_toAffine_of_related (hs.double hA), exists_toAffine_of_related (hs.negate hA), ?_, ?_,
    ?_, ?_⟩
  · intro k
    exact exists_toAffine_of_related (hs.scalarMul hA k)
  · intro k
    exact exists_toAffine_of_related (hs.ascendingMul hA k)
  · intro j k
    exact exists_toAffine_of_related (hs.jointMul hA hB j k)
  · intro points scalars hpoints
    obtain ⟨images, himages, hall⟩ := exists_mapM_toAffine hpoints
    refine ⟨images, himages, ?_, ?_⟩
    · intro hlength
      exact exists_toAffine_of_related (hs.multiMul hall hlength)
    · intro hlength
      have hlength' : images.length ≠ scalars.length := by rwa [← hall.length_eq]
      exact ⟨if_neg hlength, if_neg hlength'⟩

/-- On the curve with 13 points, five times the generator with `z = 2` plus three times a point off
the curve is the same point in both representations. -/
theorem Projective.thirteen_toAffine_simulates :
    let P : Projective := .point ⟨8, 19⟩ ⟨6, 19⟩ ⟨2, 19⟩
    let Q : Projective := .point ⟨5, 19⟩ ⟨7, 19⟩ ⟨1, 19⟩
    P.InField Curve.thirteen.p ∧ Q.InField Curve.thirteen.p ∧
      Q.isOnCurve Curve.thirteen = .ok false ∧
      P.toAffine = .ok (.point ⟨4, 19⟩ ⟨3, 19⟩) ∧ Q.toAffine = .ok (.point ⟨5, 19⟩ ⟨7, 19⟩) ∧
      ∃ S, (PointGroup.jointMul 5 P 3 Q Curve.thirteen >>= toAffine) = .ok S ∧
        PointGroup.jointMul 5 (Affine.point ⟨4, 19⟩ ⟨3, 19⟩) 3 (.point ⟨5, 19⟩ ⟨7, 19⟩)
          Curve.thirteen = .ok S := by
  intro P Q
  have hP : P.InField Curve.thirteen.p :=
    ⟨⟨rfl, by decide⟩, ⟨rfl, by decide⟩, ⟨rfl, by decide⟩⟩
  have hQ : Q.InField Curve.thirteen.p :=
    ⟨⟨rfl, by decide⟩, ⟨rfl, by decide⟩, ⟨rfl, by decide⟩⟩
  have hPA : P.toAffine = .ok (.point ⟨4, 19⟩ ⟨3, 19⟩) := by rfl
  have hQB : Q.toAffine = .ok (.point ⟨5, 19⟩ ⟨7, 19⟩) := by rfl
  obtain ⟨A, B, hA, hB, -, -, -, -, -, hjoint, -⟩ :=
    toAffine_simulates Curve.accepted_thirteen Curve.prime_p_thirteen hP hQ
  obtain rfl := Except.ok.inj (hPA.symm.trans hA)
  obtain rfl := Except.ok.inj (hQB.symm.trans hB)
  exact ⟨hP, hQ, by rfl, hPA, hQB, hjoint 5 3⟩

end EllipticSignatures
