import Mathlib.FieldTheory.Finite.Basic
import EllipticSignatures.Field.Element
import EllipticSignatures.Proofs.Bits
import EllipticSignatures.Proofs.Outcome

/-!
# Elements as residue classes

`FieldElement.ofZMod` writes a residue class of `ZMod m` as an element. The reduced elements of a
positive modulus `m` are exactly its values (`InField.exists_ofZMod`, `inField_ofZMod`), and each
operation on them is the operation of `ZMod m`: sums, differences, products, negations and powers
for every positive modulus, inverses and quotients for prime ones. Computations on reduced elements
are therefore rewritten into computations in `ZMod m`, and never end in a fault.
-/

namespace EllipticSignatures.FieldElement

variable {m : ℕ}

/-- The element is a reduced element of modulus `m`. -/
structure InField (m : ℕ) (a : FieldElement) : Prop where
  /-- The modulus is `m`. -/
  modulus_eq : a.modulus = m
  /-- The residue is below the modulus. -/
  reduced : a.Reduced

/-- The reduced element of modulus `m` in the given residue class. -/
def ofZMod (x : ZMod m) : FieldElement := ⟨x.val, m⟩

@[simp]
theorem value_ofZMod (x : ZMod m) : (ofZMod x).value = x.val := by rw [ofZMod]

@[simp]
theorem modulus_ofZMod (x : ZMod m) : (ofZMod x).modulus = m := by rw [ofZMod]

/-- A reduced number in the residue class of `x` is the element of `x`. -/
theorem mk_eq_ofZMod {v : ℕ} {x : ZMod m} (hv : v < m) (h : (v : ZMod m) = x) :
    (⟨v, m⟩ : FieldElement) = ofZMod x := by
  rw [← h, ofZMod, ZMod.val_natCast_of_lt hv]

theorem ofZMod_natCast (v : ℕ) : ofZMod (v : ZMod m) = ⟨v % m, m⟩ := by
  rw [ofZMod, ZMod.val_natCast]

/-- What is missing to the modulus is the opposite. -/
theorem natCast_modulus_sub {v : ℕ} (h : v ≤ m) : ((m - v : ℕ) : ZMod m) = -(v : ZMod m) := by
  rw [Nat.cast_sub h, ZMod.natCast_self, zero_sub]

/-- A reduced element of modulus `m` is the element of its own residue class. -/
theorem InField.eq_ofZMod {a : FieldElement} (h : a.InField m) :
    a = ofZMod (a.value : ZMod m) := by
  obtain ⟨v, n⟩ := a
  obtain rfl : n = m := h.modulus_eq
  exact mk_eq_ofZMod h.reduced rfl

/-- Every reduced element of modulus `m` is the element of a residue class. -/
theorem InField.exists_ofZMod {a : FieldElement} (h : a.InField m) :
    ∃ x : ZMod m, a = ofZMod x :=
  ⟨a.value, h.eq_ofZMod⟩

/-- A product exists only within one field, and lies in it. -/
theorem modulus_of_mul {a b d : FieldElement} (h : a.mul b = .ok d) :
    a.modulus = b.modulus ∧ d.modulus = a.modulus := by
  by_cases hab : a.modulus = b.modulus
  · simp only [mul, requireSameField, if_pos hab, ok_bind] at h
    obtain ⟨v, -, hd⟩ := bind_eq_ok.mp h
    rw [pure_eq_ok, Except.ok.injEq] at hd
    subst hd
    exact ⟨hab, rfl⟩
  · simp [mul, requireSameField, hab] at h

@[simp]
theorem zero_eq_ofZMod : zero m = ofZMod (0 : ZMod m) := by
  rw [zero, ofZMod, ZMod.val_zero]

theorem value_eq_zero_iff {x : ZMod m} : (ofZMod x).value = 0 ↔ x = 0 := by
  rw [value_ofZMod, ZMod.val_eq_zero]

@[simp]
theorem isZero_ofZMod (x : ZMod m) : (ofZMod x).isZero = decide (x = 0) := by
  rw [isZero, beq_eq_decide]
  simp only [value_eq_zero_iff]

@[simp]
theorem requireSameField_ofZMod (x y : ZMod m) :
    requireSameField (ofZMod x) (ofZMod y) = .ok () := if_pos rfl

@[simp]
theorem reduceInto_ofZMod (x : ZMod m) (n : ℕ) [NeZero n] :
    (ofZMod x).reduceInto n = .ok (ofZMod (x.val : ZMod n)) := by
  rw [reduceInto, ofNat, Checked.mod_of_pos (NeZero.pos n), ok_bind, pure_eq_ok,
    value_ofZMod, ofZMod_natCast]

section Positive

variable [NeZero m] (x y : ZMod m)

@[simp]
theorem ofZMod_inj {x y : ZMod m} : ofZMod x = ofZMod y ↔ x = y := by
  refine ⟨fun h => ZMod.val_injective m ?_, congrArg ofZMod⟩
  exact congrArg FieldElement.value h

theorem inField_ofZMod : (ofZMod x).InField m := ⟨rfl, ZMod.val_lt x⟩

@[simp]
theorem ofNat_eq_ofZMod (v : ℕ) : ofNat v m = .ok (ofZMod (v : ZMod m)) := by
  rw [ofNat, Checked.mod_of_pos (NeZero.pos m), ofZMod_natCast]
  rfl

@[simp]
theorem one_eq_ofZMod : one m = .ok (ofZMod (1 : ZMod m)) := by
  rw [one, ofNat_eq_ofZMod, Nat.cast_one]

@[simp]
theorem add_ofZMod : (ofZMod x).add (ofZMod y) = .ok (ofZMod (x + y)) := by
  have hx := ZMod.val_lt x
  have hy := ZMod.val_lt y
  simp only [add, requireSameField_ofZMod, ok_bind, pure_eq_ok, value_ofZMod, modulus_ofZMod,
    Except.ok.injEq]
  by_cases h : m ≤ x.val + y.val
  · rw [if_pos h]
    refine mk_eq_ofZMod (by omega) ?_
    rw [Nat.cast_sub h, Nat.cast_add, ZMod.natCast_zmod_val, ZMod.natCast_zmod_val,
      ZMod.natCast_self, sub_zero]
  · rw [if_neg h]
    refine mk_eq_ofZMod (by omega) ?_
    rw [Nat.cast_add, ZMod.natCast_zmod_val, ZMod.natCast_zmod_val]

@[simp]
theorem sub_ofZMod : (ofZMod x).sub (ofZMod y) = .ok (ofZMod (x - y)) := by
  have hx := ZMod.val_lt x
  have hy := ZMod.val_lt y
  simp only [sub, requireSameField_ofZMod, ok_bind, pure_eq_ok, value_ofZMod, modulus_ofZMod]
  by_cases h : y.val ≤ x.val
  · rw [if_pos h]
    refine congrArg Except.ok (mk_eq_ofZMod (by omega) ?_)
    rw [Nat.cast_sub h, ZMod.natCast_zmod_val, ZMod.natCast_zmod_val]
  · rw [if_neg h, Checked.sub_of_le hy.le, ok_bind]
    refine congrArg Except.ok (mk_eq_ofZMod (by omega) ?_)
    rw [Nat.cast_add, natCast_modulus_sub hy.le, ZMod.natCast_zmod_val, ZMod.natCast_zmod_val,
      neg_add_eq_sub]

@[simp]
theorem mul_ofZMod : (ofZMod x).mul (ofZMod y) = .ok (ofZMod (x * y)) := by
  simp only [mul, requireSameField_ofZMod, ok_bind, pure_eq_ok, value_ofZMod, modulus_ofZMod,
    Checked.mod_of_pos (NeZero.pos m)]
  rw [← ZMod.val_mul, ofZMod]

@[simp]
theorem neg_ofZMod : (ofZMod x).neg = .ok (ofZMod (-x)) := by
  have hx := ZMod.val_lt x
  rw [neg, isZero_ofZMod]
  by_cases h : x = 0
  · simp [h]
  · simp only [h, decide_false, Bool.false_eq_true, if_false, value_ofZMod, modulus_ofZMod,
      Checked.sub_of_le hx.le, ok_bind, pure_eq_ok, Except.ok.injEq]
    have hpos : 0 < x.val := Nat.pos_of_ne_zero fun h0 => h ((ZMod.val_eq_zero x).mp h0)
    refine mk_eq_ofZMod (by omega) ?_
    rw [natCast_modulus_sub hx.le, ZMod.natCast_zmod_val]

@[simp]
theorem square_ofZMod : (ofZMod x).square = .ok (ofZMod (x * x)) := by simp [square]

@[simp]
theorem cube_ofZMod : (ofZMod x).cube = .ok (ofZMod (x * x * x)) := by simp [cube]

@[simp]
theorem double_ofZMod : (ofZMod x).double = .ok (ofZMod (x + x)) := by simp [double]

@[simp]
theorem pow_ofZMod (exponent : ℕ) : (ofZMod x).pow exponent = .ok (ofZMod (x ^ exponent)) := by
  rw [pow, modulus_ofZMod, if_neg (NeZero.ne m), value_ofZMod, powMod_eq]
  refine congrArg Except.ok (mk_eq_ofZMod (Nat.mod_lt _ (NeZero.pos m)) ?_)
  rw [ZMod.natCast_mod, Nat.cast_pow, ZMod.natCast_zmod_val]

/-- Fermat's power exists for every modulus above one, whether or not it is an inverse. -/
theorem invert_eq_pow (hm : 2 ≤ m) {x : ZMod m} (hx : x ≠ 0) :
    (ofZMod x).invert = .ok (ofZMod (x ^ (m - 2))) := by
  simp [invert, hx, Checked.sub_of_le hm]

/-- Division by a nonzero element multiplies with Fermat's power, for every modulus above one. -/
theorem div_eq_mul_pow (hm : 2 ≤ m) (x : ZMod m) {y : ZMod m} (hy : y ≠ 0) :
    (ofZMod x).div (ofZMod y) = .ok (ofZMod (x * y ^ (m - 2))) := by
  rw [div, invert_eq_pow hm hy]
  exact mul_ofZMod x _

omit [NeZero m] in
/-- Modulo an odd number only zero is its own opposite. -/
theorem add_self_ne_zero (hm : m % 2 = 1) {x : ZMod m} (hx : x ≠ 0) : x + x ≠ 0 := by
  have hunit : IsUnit ((2 : ℕ) : ZMod m) :=
    (ZMod.isUnit_iff_coprime 2 m).mpr (Nat.coprime_two_left.mpr (Nat.odd_iff.mpr hm))
  rwa [← two_mul, ← Nat.cast_two, Ne, hunit.mul_right_eq_zero]

/-- The opposite of a nonzero element of odd modulus has the opposite parity. -/
theorem isOdd_neg_ofZMod (hm : m % 2 = 1) {x : ZMod m} (hx : x ≠ 0) :
    (ofZMod (-x)).isOdd = !(ofZMod x).isOdd := by
  have hval : (-x).val = m - x.val := by
    rw [ZMod.neg_val, if_neg hx]
  have hlt := ZMod.val_lt x
  rcases Nat.mod_two_eq_zero_or_one x.val with h | h <;> simp [isOdd, hval, h] <;> omega

end Positive

section Prime

variable [Fact m.Prime] {x y : ZMod m}

theorem two_ne_zero_of_prime (hm : m ≠ 2) : (2 : ZMod m) ≠ 0 := by
  intro h
  have hdvd : m ∣ 2 := (ZMod.natCast_eq_zero_iff 2 m).mp (by exact_mod_cast h)
  exact hm ((Nat.prime_dvd_prime_iff_eq Fact.out Nat.prime_two).mp hdvd)

theorem invert_zero : (ofZMod (0 : ZMod m)).invert = .error (.refused .inverseOfZero) := by
  simp [invert]

/-- Fermat's power is the inverse. -/
theorem pow_sub_two_eq_inv (hx : x ≠ 0) : x ^ (m - 2) = x⁻¹ := by
  have h2 := (Fact.out : m.Prime).two_le
  apply eq_inv_of_mul_eq_one_left
  rw [← pow_succ, show m - 2 + 1 = m - 1 by omega, ZMod.pow_card_sub_one_eq_one hx]

theorem invert_ofZMod (hx : x ≠ 0) : (ofZMod x).invert = .ok (ofZMod x⁻¹) := by
  rw [invert_eq_pow (Fact.out : m.Prime).two_le hx, pow_sub_two_eq_inv hx]

/-- A quotient by a nonzero element is the quotient of the field. -/
theorem div_ofZMod (hy : y ≠ 0) : (ofZMod x).div (ofZMod y) = .ok (ofZMod (x / y)) := by
  rw [div_eq_mul_pow (Fact.out : m.Prime).two_le x hy, pow_sub_two_eq_inv hy, div_eq_mul_inv]

end Prime

end EllipticSignatures.FieldElement
