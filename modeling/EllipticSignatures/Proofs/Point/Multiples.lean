import EllipticSignatures.Proofs.Point.Simulation

/-!
# Multiples in the group

`PointGroup.Models c r` says that a representation of points follows an abelian group along a
relation `r`: each operation succeeds and ends at a representative of the sum, double or opposite.
Every way to multiply is then multiplication in the group, for every scalar
(`Models.scalarMul`, `Models.jointMul`, `Models.ascendingMul`). Affine coordinates follow the group
of the elliptic curve (`Affine.models`), and homogeneous ones do because they follow affine ones
(`Projective.models`).
-/

namespace EllipticSignatures

/-- The operations of `G` on the curve follow those of the group `A` along `r`. -/
structure PointGroup.Models (c : Curve) {G A : Type} [PointGroup G] [AddCommGroup A]
    (r : G → A → Prop) : Prop where
  /-- The identity represents zero. -/
  identity : r PointGroup.identity 0
  /-- What `isIdentity` accepts represents zero only. -/
  eq_zero {P : G} {a : A} : r P a → PointGroup.isIdentity P → a = 0
  /-- Sums represent sums. -/
  add {P Q : G} {a b : A} : r P a → r Q b → ∃ R, PointGroup.add P Q c = .ok R ∧ r R (a + b)
  /-- Doublings represent doubles. -/
  double {P : G} {a : A} : r P a → ∃ R, PointGroup.double P c = .ok R ∧ r R (a + a)
  /-- Opposites represent opposites. -/
  negate {P : G} {a : A} : r P a → ∃ R, PointGroup.negate P = .ok R ∧ r R (-a)

namespace PointGroup.Models

variable {c : Curve} {G A : Type} [PointGroup G] [AddCommGroup A] {r : G → A → Prop}

/-- A step of `scalarMul` keeps the accumulator at the multiple by the bits read so far. -/
private theorem scalarMul_step (h : Models c r) {P acc : G} {a : A} (hP : r P a) {k i : ℕ}
    (hacc : r acc ((k / 2 ^ (i + 1)) • a)) :
    ∃ R, (do
      let doubled ← PointGroup.double acc c
      if k.testBit i then PointGroup.add doubled P c else return doubled) = .ok R ∧
        r R ((k / 2 ^ i) • a) := by
  obtain ⟨D, hD, hDr⟩ := h.double hacc
  rw [← two_nsmul, smul_smul] at hDr
  rw [hD, ok_bind, div_two_pow_eq]
  -- A zero bit leaves the double, a one bit adds the point once.
  cases k.testBit i
  · exact ⟨D, rfl, hDr⟩
  · obtain ⟨S, hS, hSr⟩ := h.add hDr hP
    exact ⟨S, hS, by rwa [← succ_nsmul] at hSr⟩

/-- Multiplication by a scalar represents the multiple. -/
theorem scalarMul (h : Models c r) {P : G} {a : A} (hP : r P a) (k : ℕ) :
    ∃ R, PointGroup.scalarMul P k c = .ok R ∧ r R (k • a) := by
  rw [PointGroup.scalarMul]
  by_cases hzero : isIdentity P
  · refine ⟨PointGroup.identity, by rw [if_pos hzero], ?_⟩
    rw [h.eq_zero hP hzero, smul_zero]
    exact h.identity
  rw [if_neg hzero]
  -- Before the first bit the multiple is zero.
  have hstart : r PointGroup.identity ((k / 2 ^ bitLength k) • a) := by
    rw [div_two_pow_of_bitLength_le le_rfl, zero_smul]
    exact h.identity
  obtain ⟨R, hR, hend⟩ := Bits.descend_ok (fun i acc => r acc ((k / 2 ^ i) • a))
    (fun _ _ => scalarMul_step h hP) hstart
  exact ⟨R, hR, by simpa using hend⟩

/-- A step of `jointMul` keeps the accumulator at the sum of both multiples by the bits read so
far. -/
private theorem jointMul_step (h : Models c r) {P Q S acc : G} {a b : A} (hP : r P a)
    (hQ : r Q b) (hS : r S (a + b)) {j k i : ℕ}
    (hacc : r acc ((j / 2 ^ (i + 1)) • a + (k / 2 ^ (i + 1)) • b)) :
    ∃ R, (do
      let doubled ← PointGroup.double acc c
      match j.testBit i, k.testBit i with
      | true, true => PointGroup.add doubled S c
      | true, false => PointGroup.add doubled P c
      | false, true => PointGroup.add doubled Q c
      | false, false => return doubled) = .ok R ∧
        r R ((j / 2 ^ i) • a + (k / 2 ^ i) • b) := by
  obtain ⟨D, hD, hDr⟩ := h.double hacc
  have htwice (s t : ℕ) : s • a + t • b + (s • a + t • b) = (2 * s) • a + (2 * t) • b := by
    rw [mul_smul, mul_smul, two_nsmul, two_nsmul, add_add_add_comm]
  rw [htwice] at hDr
  rw [hD, ok_bind, div_two_pow_eq j, div_two_pow_eq k]
  cases j.testBit i <;> cases k.testBit i
  · exact ⟨D, rfl, hDr⟩
  · obtain ⟨T, hT, hTr⟩ := h.add hDr hQ
    exact ⟨T, hT, by rwa [add_assoc, ← succ_nsmul] at hTr⟩
  · obtain ⟨T, hT, hTr⟩ := h.add hDr hP
    exact ⟨T, hT, by rwa [add_right_comm, ← succ_nsmul] at hTr⟩
  · obtain ⟨T, hT, hTr⟩ := h.add hDr hS
    exact ⟨T, hT, by rwa [add_add_add_comm, ← succ_nsmul, ← succ_nsmul] at hTr⟩

/-- Joint multiplication represents the sum of both multiples. -/
theorem jointMul (h : Models c r) {P Q : G} {a b : A} (hP : r P a) (hQ : r Q b) (j k : ℕ) :
    ∃ R, PointGroup.jointMul j P k Q c = .ok R ∧ r R (j • a + k • b) := by
  rw [PointGroup.jointMul]
  obtain ⟨S, hS, hSr⟩ := h.add hP hQ
  rw [hS, ok_bind]
  have hstart : r PointGroup.identity ((j / 2 ^ max (bitLength j) (bitLength k)) • a +
      (k / 2 ^ max (bitLength j) (bitLength k)) • b) := by
    rw [div_two_pow_of_bitLength_le (le_max_left _ _),
      div_two_pow_of_bitLength_le (le_max_right _ _), zero_smul, zero_smul, zero_add]
    exact h.identity
  obtain ⟨R, hR, hend⟩ := Bits.descend_ok
    (fun i acc => r acc ((j / 2 ^ i) • a + (k / 2 ^ i) • b))
    (fun _ _ => jointMul_step h hP hQ hSr) hstart
  exact ⟨R, hR, by simpa using hend⟩

/-- A bit of `ascend` adds the power to the multiple by the bits below it, or leaves it. -/
private theorem ascend_step (h : Models c r) {acc power : G} {a : A} {k i : ℕ}
    (hacc : r acc ((k % 2 ^ i) • a)) (hpower : r power (2 ^ i • a)) (positions : List ℕ) :
    ∃ S D, PointGroup.ascend k c (i :: positions) acc power = PointGroup.ascend k c positions S D ∧
      r S ((k % 2 ^ (i + 1)) • a) ∧ r D (2 ^ (i + 1) • a) := by
  obtain ⟨D, hD, hDr⟩ := h.double hpower
  rw [← add_nsmul, ← mul_two, ← pow_succ] at hDr
  rw [PointGroup.ascend, mod_two_pow_succ_eq, add_nsmul]
  cases k.testBit i
  · exact ⟨acc, D, by simp [hD], by simpa using hacc, hDr⟩
  · obtain ⟨S, hS, hSr⟩ := h.add hacc hpower
    exact ⟨S, D, by simp [hS, hD], by simpa using hSr, hDr⟩

/-- The loop from the lowest bit keeps the accumulator at the multiple by the bits read so far, and
the power at the multiple by the value of the next bit. -/
theorem ascend (h : Models c r) {a : A} {k : ℕ} (count : ℕ) {i : ℕ} {acc power : G}
    (hacc : r acc ((k % 2 ^ i) • a)) (hpower : r power (2 ^ i • a)) :
    ∃ R, PointGroup.ascend k c (List.range' i count) acc power = .ok R ∧
      r R ((k % 2 ^ (i + count)) • a) := by
  induction count generalizing i acc power with
  | zero => exact ⟨acc, rfl, hacc⟩
  | succ count ih =>
    obtain ⟨S, D, hstep, hS, hD⟩ := ascend_step h hacc hpower (List.range' (i + 1) count)
    obtain ⟨R, hR, hRr⟩ := ih hS hD
    rw [List.range'_succ, hstep]
    exact ⟨R, hR, by rwa [Nat.add_right_comm] at hRr⟩

/-- Multiplication from the lowest bit represents the multiple. -/
theorem ascendingMul (h : Models c r) {P : G} {a : A} (hP : r P a) (k : ℕ) :
    ∃ R, PointGroup.ascendingMul P k c = .ok R ∧ r R (k • a) := by
  rw [PointGroup.ascendingMul]
  by_cases hzero : k = 0
  · rw [if_pos hzero, hzero, zero_smul]
    exact ⟨PointGroup.identity, rfl, h.identity⟩
  by_cases hone : k = 1
  · rw [if_neg hzero, if_pos hone, hone, one_smul]
    exact ⟨P, rfl, hP⟩
  rw [if_neg hzero, if_neg hone, List.range_eq_range']
  -- Before the first bit nothing has been read, after the last one all of the scalar.
  have hstart : r PointGroup.identity ((k % 2 ^ 0) • a) := by
    rw [pow_zero, Nat.mod_one, zero_smul]
    exact h.identity
  obtain ⟨R, hR, hRr⟩ := h.ascend (bitLength k) hstart (by rwa [pow_zero, one_smul])
  refine ⟨R, hR, ?_⟩
  rwa [Nat.zero_add, Nat.mod_eq_of_lt (lt_two_pow_bitLength k)] at hRr

end PointGroup.Models

/-- A representation follows a group if it follows one that has a unique point for each element. -/
theorem PointGroup.Simulates.models {c : Curve} {G H A : Type} [PointGroup G] [PointGroup H]
    [AddCommGroup A] {r : G → H → Prop} {point : A → H} (h : Simulates c r)
    (hpoint : Models c fun B a => B = point a) : Models c fun P a => r P (point a) where
  identity := by
    rw [← hpoint.identity]
    exact h.identity
  eq_zero {P a} hP hzero := by
    rw [h.isIdentity_eq hP] at hzero
    exact hpoint.eq_zero rfl hzero
  add {P Q a b} hP hQ := by
    obtain ⟨S, hS, rfl⟩ := hpoint.add rfl rfl
    exact (h.add hP hQ).exists_of_eq_ok hS
  double {P a} hP := by
    obtain ⟨S, hS, rfl⟩ := hpoint.double rfl
    exact (h.double hP).exists_of_eq_ok hS
  negate {P a} hP := by
    obtain ⟨S, hS, rfl⟩ := hpoint.negate rfl
    exact (h.negate hP).exists_of_eq_ok hS

variable {c : Curve} [Fact c.p.Prime]

/-- Affine coordinates follow the group of the elliptic curve. -/
theorem Affine.models (hc : c.Checks) :
    PointGroup.Models c fun P (g : c.Point) => P = Affine.ofPoint g where
  identity := ofPoint_zero.symm
  eq_zero {P g} hP h := by
    subst hP
    cases g with
    | zero => rfl
    | some x y hxy => exact absurd h Bool.false_ne_true
  add := by
    rintro _ _ g h rfl rfl
    exact ⟨_, add_ofPoint hc g h, rfl⟩
  double := by
    rintro _ g rfl
    exact ⟨_, double_ofPoint hc g, rfl⟩
  negate := by
    rintro _ g rfl
    exact ⟨_, negate_ofPoint g, rfl⟩

/-- The multiple of a point of the elliptic curve, as the program computes it. -/
theorem Affine.scalarMul_ofPoint (hc : c.Checks) (T : c.Point) (k : ℕ) :
    PointGroup.scalarMul (ofPoint T) k c = .ok (ofPoint (k • T)) := by
  obtain ⟨R, hR, rfl⟩ := (Affine.models hc).scalarMul (P := ofPoint T) rfl k
  exact hR

/-- Homogeneous coordinates follow the group of the elliptic curve. -/
theorem Projective.models (hc : c.Checks) :
    PointGroup.Models c fun P (g : c.Point) => Represents c P (Affine.ofPoint g) :=
  (simulates hc).models (Affine.models hc)

end EllipticSignatures
