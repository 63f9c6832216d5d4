import Mathlib.Tactic.NormNum.Prime
import EllipticSignatures.Proofs.Field.QuadraticCharacter

/-!
# The symbol of Euler's criterion

For an odd prime modulus, `legendre` tells zero, the squares of nonzero elements and all others
apart, and it is multiplicative (`FieldElement.legendre_isCharacter`). Opposite elements have
opposite symbols exactly for the moduli that are three modulo four
(`FieldElement.forall_quadraticChar_neg_iff`).
-/

namespace EllipticSignatures.FieldElement

/-- The element is the square of a nonzero reduced element of modulus `p`. -/
def IsNonzeroSquare (p : ℕ) (a : FieldElement) : Prop :=
  ∃ c : FieldElement, c.InField p ∧ c.value ≠ 0 ∧ c.mul c = .ok a

variable {p : ℕ} [Fact p.Prime]

theorem isNonzeroSquare_ofZMod_iff (x : ZMod p) :
    IsNonzeroSquare p (ofZMod x) ↔ x ≠ 0 ∧ IsSquare x := by
  constructor
  · rintro ⟨c, hc, hvalue, hsquare⟩
    obtain ⟨z, rfl⟩ := hc.exists_ofZMod
    rw [mul_ofZMod, Except.ok.injEq, ofZMod_inj] at hsquare
    have hz : z ≠ 0 := mt value_eq_zero_iff.mpr hvalue
    rw [← hsquare]
    exact ⟨mul_ne_zero hz hz, z, rfl⟩
  · rintro ⟨hx, z, rfl⟩
    have hz : z ≠ 0 := left_ne_zero_of_mul hx
    exact ⟨ofZMod z, inField_ofZMod z, mt value_eq_zero_iff.mp hz, mul_ofZMod z z⟩

/-- All nonzero elements have the opposite character of their opposites iff the modulus is three
modulo four. -/
theorem forall_quadraticChar_neg_iff :
    (∀ x : ZMod p, x ≠ 0 → quadraticChar (ZMod p) (-x) = -quadraticChar (ZMod p) x) ↔
      p % 4 = 3 := by
  refine ⟨fun h => ?_, fun h x _ => quadraticChar_neg_eq h x⟩
  -- The opposite of one is not a square.
  have hone := h 1 one_ne_zero
  rw [map_one, quadraticChar_neg_one_iff_not_isSquare, ZMod.exists_sq_eq_neg_one_iff] at hone
  exact not_not.mp hone

/-- The three symbols tell zero, the squares of nonzero elements and all others. -/
theorem legendre_iff_of_inField (hp : p ≠ 2) {a : FieldElement} (ha : a.InField p) :
    (a.legendre = .ok 0 ↔ a.value = 0) ∧ (a.legendre = .ok 1 ↔ IsNonzeroSquare p a) ∧
      (a.legendre = .ok (-1) ↔ a.value ≠ 0 ∧ ¬IsNonzeroSquare p a) := by
  obtain ⟨x, rfl⟩ := ha.exists_ofZMod
  rw [legendre_ofZMod hp, isNonzeroSquare_ofZMod_iff, Ne, value_eq_zero_iff]
  simp only [Except.ok.injEq]
  by_cases hx : x = 0
  · simp [hx]
  · rw [quadraticChar_eq_zero_iff, quadraticChar_one_iff_isSquare hx,
      quadraticChar_neg_one_iff_not_isSquare]
    simp [hx]

omit [Fact p.Prime] in
/-- The symbol is the quadratic character. For every odd prime modulus and all reduced elements it
is zero for zero and only for it, one for the squares of nonzero elements and only for them, and
minus one for all others. The symbol of a product is the product of the symbols, and all nonzero
elements have the opposite symbol of their opposites iff the modulus is three modulo four. -/
theorem legendre_isCharacter (hp : p.Prime) (hodd : p % 2 = 1) :
    (∀ a : FieldElement, a.InField p →
      (a.legendre = .ok 0 ↔ a.value = 0) ∧ (a.legendre = .ok 1 ↔ IsNonzeroSquare p a) ∧
        (a.legendre = .ok (-1) ↔ a.value ≠ 0 ∧ ¬IsNonzeroSquare p a)) ∧
    (∀ a b : FieldElement, a.InField p → b.InField p → ∃ ab s t, a.mul b = .ok ab ∧
      a.legendre = .ok s ∧ b.legendre = .ok t ∧ ab.legendre = .ok (s * t)) ∧
    ((∀ a : FieldElement, a.InField p → a.value ≠ 0 → ∃ opposite s, a.neg = .ok opposite ∧
      a.legendre = .ok s ∧ opposite.legendre = .ok (-s)) ↔ p % 4 = 3) := by
  have := Fact.mk hp
  have htwo : p ≠ 2 := by omega
  refine ⟨fun a ha => legendre_iff_of_inField htwo ha, fun a b ha hb => ?_, ?_⟩
  · obtain ⟨x, rfl⟩ := ha.exists_ofZMod
    obtain ⟨y, rfl⟩ := hb.exists_ofZMod
    refine ⟨_, _, _, mul_ofZMod x y, legendre_ofZMod htwo x, legendre_ofZMod htwo y, ?_⟩
    rw [legendre_ofZMod htwo, map_mul]
  -- The last law is that of the character, read for elements.
  · rw [← forall_quadraticChar_neg_iff]
    constructor
    · intro h x hx
      obtain ⟨opposite, s, hneg, hs, hopposite⟩ :=
        h (ofZMod x) (inField_ofZMod x) (mt value_eq_zero_iff.mp hx)
      rw [neg_ofZMod, Except.ok.injEq] at hneg
      rw [← hneg, legendre_ofZMod htwo, Except.ok.injEq] at hopposite
      rw [legendre_ofZMod htwo, Except.ok.injEq] at hs
      rw [hopposite, hs]
    · intro h a ha hvalue
      obtain ⟨x, rfl⟩ := ha.exists_ofZMod
      refine ⟨_, _, neg_ofZMod x, legendre_ofZMod htwo x, ?_⟩
      rw [legendre_ofZMod htwo, h x (mt value_eq_zero_iff.mpr hvalue)]

/-- Modulo 23, which is three modulo four, two is a square and five is not. -/
theorem twentyThree_legendre :
    let a : FieldElement := ⟨2, 23⟩
    let b : FieldElement := ⟨5, 23⟩
    (Nat.Prime 23 ∧ 23 % 2 = 1 ∧ a.InField 23 ∧ b.InField 23 ∧ b.value ≠ 0) ∧
      IsNonzeroSquare 23 a ∧ ¬IsNonzeroSquare 23 b ∧
      (∃ ab s t, a.mul b = .ok ab ∧ a.legendre = .ok s ∧ b.legendre = .ok t ∧
        ab.legendre = .ok (s * t)) ∧
      ∃ opposite s, b.neg = .ok opposite ∧ b.legendre = .ok s ∧
        opposite.legendre = .ok (-s) := by
  intro a b
  have ha : a.InField 23 := ⟨rfl, by decide⟩
  have hb : b.InField 23 := ⟨rfl, by decide⟩
  have hp : Nat.Prime 23 := by norm_num
  obtain ⟨symbols, multiplicative, opposites⟩ := legendre_isCharacter hp (by decide)
  have hsquare : IsNonzeroSquare 23 a := (symbols a ha).right.left.mp (by decide +kernel)
  have hnonsquare := ((symbols b hb).right.right.mp (by decide +kernel)).right
  exact ⟨⟨hp, by decide, ha, hb, by decide⟩, hsquare, hnonsquare, multiplicative a b ha hb,
    opposites.mpr (by decide) b hb (by decide)⟩

end EllipticSignatures.FieldElement
