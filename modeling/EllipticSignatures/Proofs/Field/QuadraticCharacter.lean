import Mathlib.NumberTheory.LegendreSymbol.Basic
import EllipticSignatures.Field.Sqrt
import EllipticSignatures.Proofs.Field.Residue

/-!
# Euler's criterion

`legendre` compares Euler's power `x ^ ((m - 1) / 2)` with one and answers minus one for every other
power without a further test (`legendre_eq_ite`). For an odd prime modulus this is the quadratic
character of `ZMod m` (`legendre_ofZMod`).
-/

namespace EllipticSignatures.FieldElement

section AnyModulus

variable {m : ℕ} [NeZero m]

/-- The formula of `legendre`, for every modulus. -/
theorem legendre_eq_ite (x : ZMod m) :
    (ofZMod x).legendre = .ok (if x = 0 then 0 else if x ^ ((m - 1) / 2) = 1 then 1 else -1) := by
  rw [legendre, isZero_ofZMod]
  by_cases hx : x = 0
  · simp [hx]
  have hm : 1 < m := by
    have := ZMod.val_lt x
    have := mt (ZMod.val_eq_zero x).mp hx
    omega
  have hval : (x ^ ((m - 1) / 2)).val = 1 ↔ x ^ ((m - 1) / 2) = 1 := by
    have h1 : (1 : ZMod m).val = 1 := ZMod.val_one'' (by omega)
    rw [← h1, (ZMod.val_injective m).eq_iff]
  have hhalf : (m - 1) >>> 1 = (m - 1) / 2 := Nat.shiftRight_eq_div_pow _ _
  simp only [hx, decide_false, Bool.false_eq_true, if_false, modulus_ofZMod,
    Checked.sub_of_le hm.le, ok_bind, hhalf, pow_ofZMod, value_ofZMod, hval, pure_eq_ok]

theorem exists_legendre (x : ZMod m) : ∃ symbol, (ofZMod x).legendre = .ok symbol :=
  ⟨_, legendre_eq_ite x⟩

/-- The formula gives one of three numbers. -/
theorem legendre_cases (x : ZMod m) :
    (ofZMod x).legendre = .ok 0 ∨ (ofZMod x).legendre = .ok (-1) ∨ (ofZMod x).legendre = .ok 1 := by
  rw [legendre_eq_ite]
  split_ifs <;> simp

theorem legendre_eq_one_iff {x : ZMod m} :
    (ofZMod x).legendre = .ok 1 ↔ x ≠ 0 ∧ x ^ ((m - 1) / 2) = 1 := by
  rw [legendre_eq_ite, Except.ok.injEq]
  by_cases hzero : x = 0
  · simp [hzero]
  · by_cases hpow : x ^ ((m - 1) / 2) = 1 <;> simp [hzero, hpow]

end AnyModulus

variable {m : ℕ} [Fact m.Prime]

theorem odd_of_prime_ne_two (hm : m ≠ 2) : m % 2 = 1 :=
  (Fact.out : m.Prime).eq_two_or_odd.resolve_left hm

/-- `legendre` is the quadratic character. -/
theorem legendre_ofZMod (hm : m ≠ 2) (x : ZMod m) :
    (ofZMod x).legendre = .ok (quadraticChar (ZMod m) x) := by
  have hodd := odd_of_prime_ne_two hm
  have hexp : (m - 1) / 2 = m / 2 := by
    omega
  rw [legendre_eq_ite, hexp, quadraticChar_apply, quadraticCharFun]
  by_cases hx : x = 0
  · rw [if_pos hx, if_pos hx]
  · -- both sides now test whether the power is one
    rw [if_neg hx, if_neg hx]
    simp only [ZMod.euler_criterion m hx]

/-- For a modulus that is three modulo four, minus one is not a square, so opposite elements have
opposite characters. -/
theorem quadraticChar_neg_eq (hm : m % 4 = 3) (x : ZMod m) :
    quadraticChar (ZMod m) (-x) = -quadraticChar (ZMod m) x := by
  have hneg : quadraticChar (ZMod m) (-1) = -1 := by
    rw [quadraticChar_neg_one_iff_not_isSquare, ZMod.exists_sq_eq_neg_one_iff]
    exact not_not.mpr hm
  rw [← neg_one_mul x, map_mul, hneg, neg_one_mul]

/-- An element that is not a nonzero square is replaced by its opposite. The result is a nonzero
square unless the element is zero, or the element is not a square and minus one is. -/
theorem quadraticChar_pick_eq_one_iff (x : ZMod m) :
    quadraticChar (ZMod m) (if quadraticChar (ZMod m) x = 1 then x else -x) = 1 ↔
      quadraticChar (ZMod m) x = 1 ∨ quadraticChar (ZMod m) x = -1 ∧ m % 4 = 3 := by
  by_cases hx : quadraticChar (ZMod m) x = 1
  · rw [if_pos hx]
    exact iff_of_true hx (.inl hx)
  rw [if_neg hx, or_iff_right hx]
  by_cases hx₀ : x = 0
  · simp [hx₀]
  have hnonsquare := (quadraticChar_dichotomy hx₀).resolve_left hx
  by_cases hm : m % 4 = 3
  · rw [quadraticChar_neg_eq hm, hnonsquare]
    exact iff_of_true rfl ⟨rfl, hm⟩
  · -- Minus one is a square, so opposite elements have the same character.
    have hneg : quadraticChar (ZMod m) (-1) = 1 :=
      (quadraticChar_one_iff_isSquare (neg_ne_zero.mpr one_ne_zero)).mpr
        (ZMod.exists_sq_eq_neg_one_iff.mpr hm)
    rw [← neg_one_mul x, map_mul, hneg, one_mul]
    exact iff_of_false hx fun h => hm h.right

theorem isSquare_ofZMod (hm : m ≠ 2) (x : ZMod m) :
    (ofZMod x).isSquare = .ok (quadraticChar (ZMod m) x == 1) := by
  rw [isSquare, legendre_ofZMod hm, ok_bind, pure_eq_ok]

end EllipticSignatures.FieldElement
