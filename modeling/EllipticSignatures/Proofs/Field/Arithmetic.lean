import Mathlib.Data.Int.ModEq
import Mathlib.Tactic.NormNum.Prime
import EllipticSignatures.Proofs.Field.Residue

/-!
# Arithmetic on elements is arithmetic of integers modulo the modulus

For every modulus above one, an operation on reduced elements gives the reduced element that is
congruent to the result of the operation on integers (`FieldElement.Computes`). No difference on
the way is below zero, although sums, differences and negations correct by one modulus only. For a
prime modulus the power that `invert` computes is the inverse.
-/

namespace EllipticSignatures.FieldElement

/-- The computation gives the reduced element of modulus `m` that is congruent to the integer. -/
def Computes (m : ℕ) (k : ℤ) (x : Checked FieldElement) : Prop :=
  ∃ c, x = .ok c ∧ c.InField m ∧ (c.value : ℤ) ≡ k [ZMOD m]

variable {m : ℕ}

/-- An element is what the integers of its residue class compute. -/
theorem computes_ofZMod [NeZero m] {x : Checked FieldElement} {z : ZMod m} {k : ℤ}
    (hx : x = .ok (ofZMod z)) (hk : (k : ZMod m) = z) : Computes m k x := by
  refine ⟨ofZMod z, hx, inField_ofZMod z, ?_⟩
  rw [← ZMod.intCast_eq_intCast_iff, hk, value_ofZMod, Int.cast_natCast, ZMod.natCast_zmod_val]

/-- The value of an element is its residue class. -/
theorem intCast_value_ofZMod [NeZero m] (z : ZMod m) : (((ofZMod z).value : ℤ) : ZMod m) = z := by
  rw [value_ofZMod, Int.cast_natCast, ZMod.natCast_zmod_val]

section Prime

variable [Fact m.Prime]

/-- A nonzero element times the power that is computed for its inverse is one. -/
theorem mul_pow_sub_two {x : ZMod m} (hx : x ≠ 0) :
    (ofZMod x).mul (ofZMod (x ^ (m - 2))) = .ok ⟨1, m⟩ := by
  rw [mul_ofZMod, pow_sub_two_eq_inv hx, mul_inv_cancel₀ hx, ofZMod, ZMod.val_one]

/-- A quotient times its divisor is the dividend. -/
theorem exists_div_mul_cancel (x : ZMod m) {y : ZMod m} (hy : y ≠ 0) :
    ∃ q, (ofZMod x).div (ofZMod y) = .ok q ∧ q.InField m ∧ q.mul (ofZMod y) = .ok (ofZMod x) := by
  refine ⟨ofZMod (x / y), div_ofZMod hy, inField_ofZMod _, ?_⟩
  rw [mul_ofZMod, div_mul_cancel₀ x hy]

end Prime

/-- Arithmetic on elements is exact. For every modulus above one and all reduced elements, sums,
differences, products, opposites, doubles, squares, cubes and powers are reduced and congruent to
the results for integers. Inversion refuses zero and nothing else, and otherwise gives the power
with exponent `m - 2`. So no difference of natural numbers is below zero on the way. For a prime
modulus an element times its inverse is one, and a quotient by a nonzero element times that element
is the dividend. -/
theorem arithmetic_exact (hm : 2 ≤ m) {a b : FieldElement} (ha : a.InField m) (hb : b.InField m) :
    Computes m (a.value + b.value) (a.add b) ∧
    Computes m (a.value - b.value) (a.sub b) ∧
    Computes m (a.value * b.value) (a.mul b) ∧
    Computes m (-a.value) a.neg ∧
    Computes m (2 * a.value) a.double ∧
    Computes m (a.value ^ 2) a.square ∧
    Computes m (a.value ^ 3) a.cube ∧
    (∀ e : ℕ, Computes m (a.value ^ e) (a.pow e)) ∧
    (a.value = 0 → a.invert = Outcome.refuse .inverseOfZero) ∧
    (a.value ≠ 0 → ∃ i, a.invert = .ok i ∧ Computes m (a.value ^ (m - 2)) (.ok i) ∧
      (m.Prime → a.mul i = .ok ⟨1, m⟩)) ∧
    (m.Prime → b.value ≠ 0 → ∃ q, a.div b = .ok q ∧ q.InField m ∧ q.mul b = .ok a) := by
  have : NeZero m := ⟨by omega⟩
  -- Reduced elements are residue classes, and each operation is that of the ring of residues; it
  -- remains that the integer results cast to the same classes.
  obtain ⟨x, rfl⟩ := ha.exists_ofZMod
  obtain ⟨y, rfl⟩ := hb.exists_ofZMod
  have hx := intCast_value_ofZMod x
  have hy := intCast_value_ofZMod y
  have hpow (e : ℕ) : (((ofZMod x).value ^ e : ℤ) : ZMod m) = x ^ e := by
    rw [Int.cast_pow, hx]
  refine ⟨computes_ofZMod (add_ofZMod x y) ?sum, computes_ofZMod (sub_ofZMod x y) ?difference,
    computes_ofZMod (mul_ofZMod x y) ?product, computes_ofZMod (neg_ofZMod x) ?opposite,
    computes_ofZMod (double_ofZMod x) ?double, computes_ofZMod (square_ofZMod x) ?square,
    computes_ofZMod (cube_ofZMod x) ?cube, fun e => computes_ofZMod (pow_ofZMod x e) (hpow e),
    ?zero, ?inverse, ?quotient⟩
  case sum => rw [Int.cast_add, hx, hy]
  case difference => rw [Int.cast_sub, hx, hy]
  case product => rw [Int.cast_mul, hx, hy]
  case opposite => rw [Int.cast_neg, hx]
  case double => rw [Int.cast_mul, hx, Int.cast_ofNat, two_mul]
  case square => rw [hpow, sq]
  case cube => rw [hpow, pow_three']
  case zero =>
    intro hzero
    rw [invert, isZero, hzero]
    rfl
  case inverse =>
    intro hvalue
    have hx₀ : x ≠ 0 := mt value_eq_zero_iff.mpr hvalue
    refine ⟨ofZMod (x ^ (m - 2)), invert_eq_pow hm hx₀, computes_ofZMod rfl (hpow _), fun hp => ?_⟩
    have := Fact.mk hp
    exact mul_pow_sub_two hx₀
  case quotient =>
    intro hp hvalue
    have := Fact.mk hp
    exact exists_div_mul_cancel x (mt value_eq_zero_iff.mpr hvalue)

/-- Modulo 23, the difference of three and ten, the inverse of three and the quotient of both. -/
theorem twentyThree_arithmetic_exact :
    let a : FieldElement := ⟨3, 23⟩
    let b : FieldElement := ⟨10, 23⟩
    (2 ≤ 23 ∧ a.InField 23 ∧ b.InField 23 ∧ a.value ≠ 0 ∧ b.value ≠ 0 ∧ Nat.Prime 23) ∧
      Computes 23 (3 - 10) (a.sub b) ∧
      (∃ i, a.invert = .ok i ∧ Computes 23 (3 ^ 21) (.ok i) ∧ a.mul i = .ok ⟨1, 23⟩) ∧
      ∃ q, a.div b = .ok q ∧ q.InField 23 ∧ q.mul b = .ok a := by
  intro a b
  have ha : a.InField 23 := ⟨rfl, by decide⟩
  have hb : b.InField 23 := ⟨rfl, by decide⟩
  have hp : Nat.Prime 23 := by norm_num
  obtain ⟨-, difference, -, -, -, -, -, -, -, inverse, quotient⟩ :=
    arithmetic_exact (show 2 ≤ 23 by decide) ha hb
  obtain ⟨i, hi, hcomputes, hone⟩ := inverse (by decide)
  exact ⟨⟨by decide, ha, hb, by decide, by decide, hp⟩, difference, ⟨i, hi, hcomputes, hone hp⟩,
    quotient hp (by decide)⟩

end EllipticSignatures.FieldElement
