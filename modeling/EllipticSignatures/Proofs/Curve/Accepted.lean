import Mathlib.Tactic.NormNum.Prime
import EllipticSignatures.Curve.Parameters
import EllipticSignatures.Proofs.Outcome

/-!
# What an accepted curve promises

`Curve.ofParameters` is taken apart once, in `Curve.Accepted.checks`. The promises hold whether or
not the modulus and the group order are prime.
-/

namespace EllipticSignatures.Curve

/-- The promises of an accepted curve. -/
structure Checks (c : Curve) : Prop where
  /-- The modulus exceeds three. -/
  three_lt_p : 3 < c.p
  /-- The modulus is odd. -/
  p_odd : c.p % 2 = 1
  /-- The group order exceeds one. -/
  one_lt_n : 1 < c.n
  /-- The coefficient of `x` lies in the field of coordinates. -/
  a_modulus : c.a.modulus = c.p
  /-- The coefficient of `x` is reduced. -/
  a_reduced : c.a.Reduced
  /-- The constant coefficient lies in the field of coordinates. -/
  b_modulus : c.b.modulus = c.p
  /-- The constant coefficient is reduced. -/
  b_reduced : c.b.Reduced
  /-- The generator is a finite point with reduced coordinates. -/
  generator_eq : ∃ gx gy, gx < c.p ∧ gy < c.p ∧ c.generator = .point ⟨gx, c.p⟩ ⟨gy, c.p⟩
  /-- The cubic has no repeated root. -/
  nonsingular : ∃ d, c.discriminant = .ok d ∧ d.isZero = false
  /-- The generator satisfies the curve equation. -/
  generator_onCurve : c.generator.isOnCurve c = .ok true
  /-- The group order times the generator is the identity. -/
  annihilates : c.annihilatesGenerator = .ok true

theorem Checks.p_ne_two {c : Curve} (hc : c.Checks) : c.p ≠ 2 := by
  have := hc.three_lt_p
  omega

theorem Checks.two_le_p {c : Curve} (hc : c.Checks) : 2 ≤ c.p := by
  have := hc.three_lt_p
  omega

theorem Checks.neZero_p {c : Curve} (hc : c.Checks) : NeZero c.p :=
  ⟨by have := hc.three_lt_p; omega⟩

theorem Checks.neZero_n {c : Curve} (hc : c.Checks) : NeZero c.n :=
  ⟨by have := hc.one_lt_n; omega⟩

theorem assemble_eq_ok {name : String} {p n a b gx gy : ℕ} (hp : 0 < p) :
    assemble name p n a b gx gy = .ok {
      name, p, n
      a := ⟨a % p, p⟩
      b := ⟨b % p, p⟩
      generator := .point ⟨gx % p, p⟩ ⟨gy % p, p⟩ } := by
  simp [assemble, FieldElement.ofNat, Checked.mod_of_pos hp]

/-- A curve that `ofParameters` returns keeps every promise. -/
theorem checks_of_ofParameters {name : String} {p n a b gx gy : ℕ} {c : Curve}
    (h : ofParameters name p n a b gx gy = .ok c) : c.Checks := by
  rw [ofParameters] at h
  -- Each check that fails ends in a refusal, so a returned curve has passed it.
  by_cases hp : p ≤ 3 ∨ p % 2 = 0
  · simp [hp] at h
  by_cases hn : n ≤ 1
  · simp [hp, hn] at h
  by_cases hg : p ≤ gx ∨ p ≤ gy
  · simp [hp, hn, hg] at h
  have hpos : 0 < p := by omega
  simp only [hp, hn, hg, if_false, assemble_eq_ok hpos, Outcome.liftM_checked,
    Outcome.ofChecked_ok, ok_bind] at h
  obtain ⟨d, hd, h⟩ := bind_eq_ok.mp h
  by_cases hz : d.isZero
  · simp [hz] at h
  rw [if_neg hz] at h
  obtain ⟨on, hon, h⟩ := bind_eq_ok.mp h
  cases on
  · simp at h
  simp only [Bool.not_true, Bool.false_eq_true, if_false] at h
  obtain ⟨zero, hzero, h⟩ := bind_eq_ok.mp h
  cases zero
  · simp at h
  simp only [Bool.not_true, Bool.false_eq_true, if_false, pure_eq_ok, Except.ok.injEq] at h
  subst h
  rw [Outcome.ofChecked_eq_ok] at hd hon hzero
  exact {
    three_lt_p := by simp only; omega
    p_odd := by simp only; omega
    one_lt_n := by simp only; omega
    a_modulus := rfl
    a_reduced := Nat.mod_lt a hpos
    b_modulus := rfl
    b_reduced := Nat.mod_lt b hpos
    generator_eq := ⟨gx % p, gy % p, Nat.mod_lt gx hpos, Nat.mod_lt gy hpos, rfl⟩
    nonsingular := ⟨d, hd, by simpa using hz⟩
    generator_onCurve := hon
    annihilates := hzero }

theorem Accepted.checks {c : Curve} (h : c.Accepted) : c.Checks := by
  obtain ⟨p, n, a, b, gx, gy, h⟩ := h
  exact checks_of_ofParameters h

/-- The curve `y² = x³ + 2` over the field of 19 elements, which has 13 points. It is small enough
to be searched by hand, and some of its abscissas exceed the group order. -/
def thirteen : Curve :=
  { name := "thirteen"
    p := 19
    n := 13
    a := ⟨0, 19⟩
    b := ⟨2, 19⟩
    generator := .point ⟨4, 19⟩ ⟨3, 19⟩ }

theorem accepted_thirteen : thirteen.Accepted :=
  ⟨19, 13, 0, 2, 4, 3, by rfl⟩

theorem prime_p_thirteen : thirteen.p.Prime := by
  rw [thirteen]
  norm_num

theorem prime_n_thirteen : thirteen.n.Prime := by
  rw [thirteen]
  norm_num

/-- The curve `y² = x³ + 4` modulo the Carmichael number 1729, with a generator that nine
annihilates. Neither number is prime. -/
def carmichael : Curve :=
  { name := "carmichael"
    p := 1729
    n := 9
    a := ⟨0, 1729⟩
    b := ⟨4, 1729⟩
    generator := .point ⟨0, 1729⟩ ⟨2, 1729⟩ }

theorem accepted_carmichael : carmichael.Accepted :=
  ⟨1729, 9, 0, 4, 0, 2, by rfl⟩

end EllipticSignatures.Curve
