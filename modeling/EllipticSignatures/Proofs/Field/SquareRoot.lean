import Mathlib.Algebra.QuadraticAlgebra.Basic
import Mathlib.Algebra.CharP.Lemmas
import EllipticSignatures.Proofs.Field.QuadraticCharacter

/-!
# Square roots by Cipolla's method

For an odd prime modulus `sqrt` finds a root of every square and refuses every other element.

- `cipolla_sq`: with `ω = t² - a` a non-residue, `(t + √ω) ^ ((m + 1) / 2)` lies in `ZMod m` and is
  a root of the square `a`;
- `exists_searchBase`: the search for a base ends, because it stops at a root of the element if it
  finds no non-residue before;
- `sqrt_complete`: what `sqrt` returns.
-/

namespace EllipticSignatures

/-! ## The quadratic extension -/

namespace QuadraticElement

open FieldElement

variable {m : ℕ} [NeZero m] {ω : ZMod m}

/-- An element of `(ZMod m)[√ω]` as data. -/
def ofAlgebra (z : QuadraticAlgebra (ZMod m) ω 0) : QuadraticElement :=
  ⟨ofZMod z.re, ofZMod z.im, ofZMod ω⟩

theorem mul_ofAlgebra (z w : QuadraticAlgebra (ZMod m) ω 0) :
    (ofAlgebra z).mul (ofAlgebra w) = .ok (ofAlgebra (z * w)) := by
  simp only [mul, ofAlgebra, mul_ofZMod, add_ofZMod, ok_bind, pure_eq_ok, Except.ok.injEq,
    QuadraticElement.mk.injEq, ofZMod_inj, QuadraticAlgebra.re_mul, QuadraticAlgebra.im_mul]
  refine ⟨by ring, by ring, trivial⟩

/-- A step of the loop keeps the accumulator at the power by the bits read so far. -/
private theorem pow_step (z : QuadraticAlgebra (ZMod m) ω 0) {exponent i : ℕ}
    {acc : QuadraticElement} (h : acc = ofAlgebra (z ^ (exponent / 2 ^ (i + 1)))) :
    ∃ next, (do
      let squared ← acc.mul acc
      if exponent.testBit i then squared.mul (ofAlgebra z) else return squared) = .ok next ∧
        next = ofAlgebra (z ^ (exponent / 2 ^ i)) := by
  rw [h, mul_ofAlgebra, ← pow_add, ← two_mul, ok_bind, div_two_pow_eq exponent i]
  cases exponent.testBit i
  · exact ⟨_, rfl, by simp⟩
  · refine ⟨_, mul_ofAlgebra _ _, ?_⟩
    rw [Bool.toNat_true, pow_succ z]

/-- The loop over the bits of the exponent computes the power. -/
theorem pow_ofAlgebra (z : QuadraticAlgebra (ZMod m) ω 0) (exponent : ℕ) :
    (ofAlgebra z).pow exponent = .ok (ofAlgebra (z ^ exponent)) := by
  have hone : (⟨ofZMod (1 : ZMod m), ofZMod (0 : ZMod m), ofZMod ω⟩ : QuadraticElement)
      = ofAlgebra (z ^ (exponent / 2 ^ bitLength exponent)) := by
    -- No bit is read yet, so the power is one.
    rw [div_two_pow_of_bitLength_le le_rfl, pow_zero]
    rfl
  obtain ⟨r, hr, hend⟩ := Bits.descend_ok (fun i acc => acc = ofAlgebra (z ^ (exponent / 2 ^ i)))
    (fun _ _ => pow_step z) hone
  rw [pow_zero, Nat.div_one] at hend
  rw [pow, show (ofAlgebra z).re.modulus = m from modulus_ofZMod _, one_eq_ofZMod, ok_bind,
    zero_eq_ofZMod]
  rw [hend] at hr
  exact hr

end QuadraticElement

namespace FieldElement

variable {m : ℕ} [Fact m.Prime] {a t : ZMod m}

/-- The conjugate `t - √ω` is the Frobenius image of `t + √ω`. -/
theorem frobenius_conjugate (hm : m ≠ 2) {ω : ZMod m} (hω : ¬IsSquare ω) :
    (⟨t, 1⟩ : QuadraticAlgebra (ZMod m) ω 0) ^ m = ⟨t, -1⟩ := by
  have hodd := odd_of_prime_ne_two hm
  have hω0 : ω ≠ 0 := by
    rintro rfl
    exact hω (IsSquare.zero)
  -- Euler's criterion for the non-residue `ω`
  have heuler : ω ^ (m / 2) = -1 :=
    (ZMod.pow_div_two_eq_neg_one_or_one m hω0).resolve_left
      fun h => hω ((ZMod.euler_criterion m hω0).mpr h)
  -- `√ω` to the power `m` is its own opposite, since `m` is odd and `ω ^ (m / 2) = -1`
  let root : QuadraticAlgebra (ZMod m) ω 0 := ⟨0, 1⟩
  have hroot : root ^ 2 = .C ω := by
    rw [pow_two]
    ext <;> simp [root]
  have hrootm : root ^ m = -root := by
    calc root ^ m = (root ^ 2) ^ (m / 2) * root := by
          rw [← pow_mul, ← pow_succ, show 2 * (m / 2) + 1 = m by omega]
      _ = .C (-1) * root := by rw [hroot, ← QuadraticAlgebra.C_pow, heuler]
      _ = -root := by rw [QuadraticAlgebra.C_neg, QuadraticAlgebra.C_one, neg_one_mul]
  -- in characteristic `m` the power of the sum is the sum of the powers
  have hchar : CharP (QuadraticAlgebra (ZMod m) ω 0) m :=
    charP_of_injective_algebraMap QuadraticAlgebra.algebraMap_injective m
  have hsplit : (⟨t, 1⟩ : QuadraticAlgebra (ZMod m) ω 0) = .C t + root := by
    ext <;> simp [root]
  rw [hsplit, add_pow_char, hrootm, ← QuadraticAlgebra.C_pow, ZMod.pow_card]
  ext <;> simp [root]

/-- The norm of `t + √(t² - a)` is `a`, so Cipolla's power of it is a root of `a` in the
extension. -/
theorem cipolla_mul_self (hm : m ≠ 2) (hω : ¬IsSquare (t * t - a)) :
    (⟨t, 1⟩ : QuadraticAlgebra (ZMod m) (t * t - a) 0) ^ ((m + 1) / 2) * ⟨t, 1⟩ ^ ((m + 1) / 2) =
      .C a := by
  have hodd := odd_of_prime_ne_two hm
  rw [← pow_add, show (m + 1) / 2 + (m + 1) / 2 = m + 1 by omega, pow_succ,
    frobenius_conjugate hm hω]
  ext <;> simp

/-- A root in the extension of a square of the field lies in the field. -/
theorem im_eq_zero_of_mul_self (hm : m ≠ 2) {ω : ZMod m} (ha : IsSquare a) (hω : ¬IsSquare ω)
    {z : QuadraticAlgebra (ZMod m) ω 0} (hz : z * z = .C a) : z.im = 0 := by
  have hre : z.re * z.re + ω * (z.im * z.im) = a := by
    simpa [mul_assoc] using congrArg QuadraticAlgebra.re hz
  have him : 2 * (z.re * z.im) = 0 := by
    have h := congrArg QuadraticAlgebra.im hz
    simp only [QuadraticAlgebra.im_mul, QuadraticAlgebra.im_C] at h
    linear_combination h
  by_contra him0
  have hre0 : z.re = 0 :=
    (mul_eq_zero.mp ((mul_eq_zero.mp him).resolve_left (two_ne_zero_of_prime hm))).resolve_right
      him0
  -- a rational part of zero makes `ω` the square of `s / z.im`
  obtain ⟨s, rfl⟩ := ha
  refine hω ⟨s / z.im, ?_⟩
  rw [hre0] at hre
  field_simp
  linear_combination hre

/-- The rational part of Cipolla's power is a root of the square `a`, and the irrational part is
zero. -/
theorem cipolla_sq (hm : m ≠ 2) (ha : IsSquare a) (hω : ¬IsSquare (t * t - a)) :
    ∃ r : ZMod m, r * r = a ∧
      (⟨t, 1⟩ : QuadraticAlgebra (ZMod m) (t * t - a) 0) ^ ((m + 1) / 2) = .C r := by
  have hsq := cipolla_mul_self hm hω
  have him := im_eq_zero_of_mul_self hm ha hω hsq
  set z := (⟨t, 1⟩ : QuadraticAlgebra (ZMod m) (t * t - a) 0) ^ ((m + 1) / 2)
  have hre := congrArg QuadraticAlgebra.re hsq
  rw [QuadraticAlgebra.re_mul, him, mul_zero, add_zero, QuadraticAlgebra.re_C] at hre
  refine ⟨z.re, hre, ?_⟩
  ext
  · rw [QuadraticAlgebra.re_C]
  · rw [QuadraticAlgebra.im_C, him]

/-- The loop over the bits computes Cipolla's power, whose rational part is a root. -/
theorem exists_pow_nonResidue (hm : m ≠ 2) (ha : IsSquare a) (hω : ¬IsSquare (t * t - a)) :
    ∃ r : ZMod m, r * r = a ∧
      QuadraticElement.pow ⟨ofZMod t, ofZMod (1 : ZMod m), ofZMod (t * t - a)⟩ ((m + 1) >>> 1) =
        .ok ⟨ofZMod r, ofZMod (0 : ZMod m), ofZMod (t * t - a)⟩ := by
  obtain ⟨r, hr, hpow⟩ := cipolla_sq hm ha hω
  refine ⟨r, hr, ?_⟩
  have hloop := QuadraticElement.pow_ofAlgebra
    (⟨t, 1⟩ : QuadraticAlgebra (ZMod m) (t * t - a) 0) ((m + 1) / 2)
  rw [hpow] at hloop
  rw [Nat.shiftRight_eq_div_pow, pow_one]
  exact hloop

/-! ## The search for a base -/

/-- A reduced element of the same modulus is a square root. -/
def HasRoot (a : FieldElement) : Prop := ∃ b : FieldElement, b.InField a.modulus ∧ b.mul b = .ok a

/-- The element that the search has stopped at. -/
def ExtensionBase.tried : ExtensionBase → FieldElement
  | .root t => t
  | .nonResidue t _ => t

/-- What the search for a root of `a` stops at: a root, or an element whose square differs from `a`
by an element without a root. -/
def ExtensionBase.IsBaseOf (a : FieldElement) : ExtensionBase → Prop
  | .root t => t.InField a.modulus ∧ t.mul t = .ok a
  | .nonResidue t omega =>
    t.InField a.modulus ∧ (do (← t.square).sub a) = .ok omega ∧ ¬omega.HasRoot

/-- Having a root is being a square of the field. -/
theorem hasRoot_ofZMod_iff : (ofZMod a).HasRoot ↔ IsSquare a := by
  rw [HasRoot, modulus_ofZMod]
  constructor
  · rintro ⟨b, hb, hsq⟩
    obtain ⟨y, rfl⟩ := hb.exists_ofZMod
    rw [mul_ofZMod, Except.ok.injEq, ofZMod_inj] at hsq
    exact ⟨y, hsq.symm⟩
  · rintro ⟨y, rfl⟩
    exact ⟨ofZMod y, inField_ofZMod y, mul_ofZMod y y⟩

/-- The base that the search finds at `t`, if it stops there. -/
def baseAt? (a t : ZMod m) : Option ExtensionBase :=
  if quadraticChar (ZMod m) (t * t - a) = -1 then
    some (.nonResidue (ofZMod t) (ofZMod (t * t - a)))
  else if t * t = a then some (.root (ofZMod t))
  else none

/-- The search stops at every root of the element. -/
theorem baseAt?_of_mul_self (h : t * t = a) : baseAt? a t = some (.root (ofZMod t)) := by
  rw [baseAt?, if_neg, if_pos h]
  rw [h, sub_self, quadraticChar_zero]
  decide

theorem baseAt?_of_not_isSquare (h : ¬IsSquare (t * t - a)) :
    baseAt? a t = some (.nonResidue (ofZMod t) (ofZMod (t * t - a))) :=
  if_pos (quadraticChar_neg_one_iff_not_isSquare.mpr h)

theorem isBaseOf_root_iff {r : FieldElement} :
    (ExtensionBase.root r).IsBaseOf (ofZMod a) ↔ ∃ t : ZMod m, t * t = a ∧ r = ofZMod t := by
  rw [ExtensionBase.IsBaseOf, modulus_ofZMod]
  constructor
  · rintro ⟨hr, hsq⟩
    obtain ⟨t, rfl⟩ := hr.exists_ofZMod
    rw [mul_ofZMod, Except.ok.injEq, ofZMod_inj] at hsq
    exact ⟨t, hsq, rfl⟩
  · rintro ⟨t, rfl, rfl⟩
    exact ⟨inField_ofZMod t, mul_ofZMod t t⟩

theorem isBaseOf_nonResidue_iff {r omega : FieldElement} :
    (ExtensionBase.nonResidue r omega).IsBaseOf (ofZMod a) ↔
      ∃ t : ZMod m, ¬IsSquare (t * t - a) ∧ r = ofZMod t ∧ omega = ofZMod (t * t - a) := by
  rw [ExtensionBase.IsBaseOf, modulus_ofZMod]
  constructor
  · rintro ⟨hr, homega, hroot⟩
    obtain ⟨t, rfl⟩ := hr.exists_ofZMod
    rw [square_ofZMod, ok_bind, sub_ofZMod, Except.ok.injEq] at homega
    subst homega
    exact ⟨t, hasRoot_ofZMod_iff.not.mp hroot, rfl, rfl⟩
  · rintro ⟨t, ht, rfl, rfl⟩
    refine ⟨inField_ofZMod t, ?_, hasRoot_ofZMod_iff.not.mpr ht⟩
    rw [square_ofZMod, ok_bind, sub_ofZMod]

/-- A base found at `t` is a base of the element, and the one tried there. -/
theorem isBaseOf_of_baseAt? {b : ExtensionBase} (h : baseAt? a t = some b) :
    b.IsBaseOf (ofZMod a) ∧ b.tried = ofZMod t := by
  rw [baseAt?] at h
  split at h
  · next hneg =>
    obtain rfl := Option.some.inj h
    have hω := quadraticChar_neg_one_iff_not_isSquare.mp hneg
    exact ⟨isBaseOf_nonResidue_iff.mpr ⟨t, hω, rfl, rfl⟩, rfl⟩
  · split at h
    · next hroot =>
      obtain rfl := Option.some.inj h
      exact ⟨isBaseOf_root_iff.mpr ⟨t, hroot, rfl⟩, rfl⟩
    · cases h

/-- Every base of the element is found where it is tried. -/
theorem ExtensionBase.IsBaseOf.exists_baseAt? {b : ExtensionBase} (h : b.IsBaseOf (ofZMod a)) :
    ∃ t : ZMod m, b.tried = ofZMod t ∧ baseAt? a t = some b := by
  cases b with
  | root r =>
    obtain ⟨t, ht, rfl⟩ := isBaseOf_root_iff.mp h
    exact ⟨t, rfl, baseAt?_of_mul_self ht⟩
  | nonResidue r omega =>
    obtain ⟨t, ht, rfl, rfl⟩ := isBaseOf_nonResidue_iff.mp h
    exact ⟨t, rfl, baseAt?_of_not_isSquare ht⟩

/-- A step of the search stops at a base or goes on to the next element. -/
theorem searchBase_succ (hm : m ≠ 2) (tries : ℕ) (t : ZMod m) :
    searchBase (ofZMod a) (ofZMod (1 : ZMod m)) (tries + 1) (ofZMod t) =
      match baseAt? a t with
      | some b => .ok b
      | none => searchBase (ofZMod a) (ofZMod (1 : ZMod m)) tries (ofZMod (t + 1)) := by
  simp only [searchBase, square_ofZMod, sub_ofZMod, legendre_ofZMod hm, add_ofZMod, ok_bind,
    pure_eq_ok, baseAt?]
  by_cases hneg : quadraticChar (ZMod m) (t * t - a) = -1
  · rw [if_pos hneg, if_pos hneg]
  · rw [if_neg hneg, if_neg hneg]
    simp only [quadraticChar_eq_zero_iff, sub_eq_zero]
    by_cases hroot : t * t = a
    · rw [if_pos hroot, if_pos hroot]
    · rw [if_neg hroot, if_neg hroot]

/-- The search stops at the first base, however many more elements it may try. -/
theorem searchBase_of_first (hm : m ≠ 2) {b : ExtensionBase} {j tries : ℕ} {t : ZMod m}
    (hskip : ∀ i < j, baseAt? a (t + i) = none) (hstop : baseAt? a (t + j) = some b)
    (htries : j < tries) :
    searchBase (ofZMod a) (ofZMod (1 : ZMod m)) tries (ofZMod t) = .ok b := by
  induction tries generalizing j t with
  | zero => exact absurd htries (Nat.not_lt_zero j)
  | succ tries ih =>
    rw [searchBase_succ hm]
    cases j with
    | zero =>
      rw [Nat.cast_zero, add_zero] at hstop
      rw [hstop]
    | succ j =>
      have hfirst := hskip 0 (Nat.succ_pos j)
      rw [Nat.cast_zero, add_zero] at hfirst
      rw [hfirst]
      -- From the next element on, one fewer is skipped.
      have hshift (i : ℕ) : t + 1 + (i : ZMod m) = t + (i + 1 : ℕ) := by
        push_cast
        ring
      apply ih (j := j)
      · intro i hi
        rw [hshift]
        exact hskip (i + 1) (Nat.succ_lt_succ hi)
      · rwa [hshift]
      · exact Nat.lt_of_succ_lt_succ htries

/-- The search for a root of a square ends at the least base. -/
theorem exists_searchBase (hm : m ≠ 2) (ha : IsSquare a) :
    ∃ b : ExtensionBase, b.IsBaseOf (ofZMod a) ∧ b.tried.InField m ∧
      (∀ b' : ExtensionBase, b'.IsBaseOf (ofZMod a) → b.tried.value ≤ b'.tried.value) ∧
      ∀ tries, b.tried.value < tries →
        searchBase (ofZMod a) (ofZMod (1 : ZMod m)) tries (ofZMod (0 : ZMod m)) = .ok b := by
  have hstops {b : ExtensionBase} {t : ZMod m} (h : baseAt? a t = some b) :
      (baseAt? a (t.val : ZMod m)).isSome := by
    rw [ZMod.natCast_zmod_val, h, Option.isSome_some]
  -- The root itself is a base, so there is a least one.
  have hex : ∃ j : ℕ, (baseAt? a (j : ZMod m)).isSome := by
    obtain ⟨s, hs⟩ := ha
    exact ⟨s.val, hstops (baseAt?_of_mul_self hs.symm)⟩
  obtain ⟨b, hb⟩ := Option.isSome_iff_exists.mp (Nat.find_spec hex)
  have hleast {b' : ExtensionBase} {t : ZMod m} (h : baseAt? a t = some b') :
      Nat.find hex ≤ t.val := Nat.find_min' hex (hstops h)
  obtain ⟨hbase, htried⟩ := isBaseOf_of_baseAt? hb
  have hlt : Nat.find hex < m := (hleast hb).trans_lt (ZMod.val_lt _)
  have hvalue : b.tried.value = Nat.find hex := by
    rw [htried, value_ofZMod, ZMod.val_natCast_of_lt hlt]
  refine ⟨b, hbase, htried ▸ inField_ofZMod _, ?_, ?_⟩
  · intro b' hb'
    obtain ⟨t, ht, hfound⟩ := hb'.exists_baseAt?
    rw [hvalue, ht, value_ofZMod]
    exact hleast hfound
  · intro tries htries
    apply searchBase_of_first hm _ _ (hvalue ▸ htries)
    · intro i hi
      rw [zero_add]
      exact Option.not_isSome_iff_eq_none.mp (Nat.find_min hex hi)
    · rw [zero_add]
      exact hb

/-! ## Square roots -/

/-- `sqrt` returns a root of every square. -/
theorem sqrt_of_isSquare (hm : m ≠ 2) (ha : IsSquare a) :
    ∃ y : ZMod m, y * y = a ∧ (ofZMod a).sqrt = .ok (some (ofZMod y)) := by
  by_cases ha0 : a = 0
  · refine ⟨0, by rw [ha0, mul_zero], ?_⟩
    rw [sqrt, legendre_ofZMod hm, ha0, quadraticChar_zero]
    rfl
  have hchar : quadraticChar (ZMod m) a = 1 := (quadraticChar_one_iff_isSquare ha0).mpr ha
  -- the least base is among the `m` elements that are tried
  obtain ⟨b, hbase, hfield, -, hb⟩ := exists_searchBase hm ha
  have hvalue : b.tried.value < m := hfield.modulus_eq ▸ hfield.reduced
  have hsearch : (ofZMod a).sqrt = (do
      match b with
      | .root t => return some t
      | .nonResidue t omega =>
        let root := (← QuadraticElement.pow ⟨t, ofZMod (1 : ZMod m), omega⟩ ((m + 1) >>> 1)).re
        return if (← root.square) = ofZMod a then some root else none) := by
    rw [sqrt, legendre_ofZMod hm, ok_bind, hchar]
    simp only [modulus_ofZMod, one_eq_ofZMod, zero_eq_ofZMod, ok_bind, hb m hvalue]
    rfl
  cases b with
  | root r =>
    obtain ⟨t, ht, rfl⟩ := isBaseOf_root_iff.mp hbase
    exact ⟨t, ht, hsearch⟩
  | nonResidue r omega =>
    obtain ⟨t, ht, rfl, rfl⟩ := isBaseOf_nonResidue_iff.mp hbase
    -- the power is a root by Cipolla's theorem, so the last test of `sqrt` passes
    obtain ⟨y, hy, hpow⟩ := exists_pow_nonResidue hm ha ht
    refine ⟨y, hy, ?_⟩
    rw [hsearch]
    simp only [hpow, ok_bind, square_ofZMod, hy, if_true, pure_eq_ok]

/-- `sqrt` refuses every element that is not a square. -/
theorem sqrt_of_not_isSquare (hm : m ≠ 2) (ha : ¬IsSquare a) : (ofZMod a).sqrt = .ok none := by
  rw [sqrt, legendre_ofZMod hm, quadraticChar_neg_one_iff_not_isSquare.mpr ha]
  rfl

omit [Fact m.Prime] in
/-- For an odd prime modulus the search ends, and `sqrt` returns a root of every element that has
one and refuses exactly the others. The search stops at the least base below the modulus, however
many elements it may try, and Cipolla's power of every base passes the last test. -/
theorem sqrt_complete (hp : m.Prime) (hm : m ≠ 2) {a : FieldElement} (ha : a.InField m) :
    (a.HasRoot → ∃ r, a.sqrt = .ok (some r) ∧ r.InField m ∧ r.mul r = .ok a) ∧
    (a.sqrt = .ok none ↔ ¬a.HasRoot) ∧
    (a.HasRoot → ∃ b : ExtensionBase, b.IsBaseOf a ∧ b.tried.InField m ∧
      (∀ b' : ExtensionBase, b'.IsBaseOf a → b.tried.value ≤ b'.tried.value) ∧
      ∀ tries, b.tried.value < tries → searchBase a ⟨1, m⟩ tries (zero m) = .ok b) ∧
    ∀ t omega, (ExtensionBase.nonResidue t omega).IsBaseOf a → a.HasRoot →
      ∃ power, QuadraticElement.pow ⟨t, ⟨1, m⟩, omega⟩ ((m + 1) >>> 1) = .ok power ∧
        power.im = zero m ∧ power.re.mul power.re = .ok a := by
  have := Fact.mk hp
  obtain ⟨x, rfl⟩ := ha.exists_ofZMod
  have hone : (⟨1, m⟩ : FieldElement) = ofZMod (1 : ZMod m) := by
    rw [ofZMod, ZMod.val_one]
  simp only [hasRoot_ofZMod_iff, hone, zero_eq_ofZMod]
  refine ⟨fun hx => ?_, ⟨fun hnone hx => ?_, sqrt_of_not_isSquare hm⟩, exists_searchBase hm, ?_⟩
  · obtain ⟨y, hy, hsqrt⟩ := sqrt_of_isSquare hm hx
    refine ⟨ofZMod y, hsqrt, inField_ofZMod y, ?_⟩
    rw [mul_ofZMod, hy]
  · obtain ⟨y, -, hsqrt⟩ := sqrt_of_isSquare hm hx
    rw [hsqrt] at hnone
    cases hnone
  · intro r omega hbase hx
    obtain ⟨t, ht, rfl, rfl⟩ := isBaseOf_nonResidue_iff.mp hbase
    obtain ⟨y, hy, hpow⟩ := exists_pow_nonResidue hm hx ht
    refine ⟨_, hpow, rfl, ?_⟩
    rw [mul_ofZMod, hy]

/-- Modulo thirteen three has a root, which the base `1 + √11` gives, and eleven has none. -/
theorem sqrt_complete_thirteen :
    (∃ r, (⟨3, 13⟩ : FieldElement).sqrt = .ok (some r) ∧ r.InField 13 ∧ r.mul r = .ok ⟨3, 13⟩) ∧
    ¬(⟨11, 13⟩ : FieldElement).HasRoot ∧
    ∃ power, QuadraticElement.pow ⟨⟨1, 13⟩, ⟨1, 13⟩, ⟨11, 13⟩⟩ 7 = .ok power ∧
      power.im = zero 13 ∧ power.re.mul power.re = .ok ⟨3, 13⟩ := by
  have hp : Nat.Prime 13 := by decide
  have helement {v : ℕ} (hv : v < 13) : (⟨v, 13⟩ : FieldElement).InField 13 := ⟨rfl, hv⟩
  obtain ⟨hroot, -, -, hpower⟩ := sqrt_complete hp (by decide) (helement (v := 3) (by decide))
  obtain ⟨-, hnone, -, -⟩ := sqrt_complete hp (by decide) (helement (v := 11) (by decide))
  have hthree : (⟨3, 13⟩ : FieldElement).HasRoot := ⟨⟨4, 13⟩, helement (by decide), rfl⟩
  have heleven : ¬(⟨11, 13⟩ : FieldElement).HasRoot := hnone.mp (by decide +kernel)
  exact ⟨hroot hthree, heleven, hpower _ _ ⟨helement (by decide), rfl, heleven⟩ hthree⟩

end FieldElement

end EllipticSignatures
