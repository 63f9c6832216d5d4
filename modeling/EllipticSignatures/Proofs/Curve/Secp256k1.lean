import Mathlib.FieldTheory.Finite.Basic
import Mathlib.Tactic.NormNum.Prime
import EllipticSignatures.Proofs.Curve.Accepted
import EllipticSignatures.Proofs.Lucas

/-!
# The default curve

The curve of keys that are read from bytes or text passes every check of `Curve.ofParameters`, its
modulus is a prime that is three modulo four, and its group order is an odd prime. Statements about
accepted curves of prime modulus and group order therefore hold for it.
-/

namespace EllipticSignatures.Curve

theorem accepted_secp256k1 : secp256k1.Accepted :=
  ⟨secp256k1.p, secp256k1.n, 0, 7,
    0x79be667ef9dcbbac55a06295ce870b07029bfcdb2dce28d959f2815b16f81798,
    0x483ada7726a3c4655da4fbfc0e1108a8fd17b448a68554199c47d08ffb10d4b8, by decide +kernel⟩

theorem p_mod_four_secp256k1 : secp256k1.p % 4 = 3 := by decide

theorem n_ne_two_secp256k1 : secp256k1.n ≠ 2 := by decide

theorem prime_p_secp256k1 : secp256k1.p.Prime := by
  have h₁ : Nat.Prime 173378833005251801 :=
    prime_of_lucasTest 6 [2, 2, 2, 5, 5, 2621, 24809, 13331831] [] (by norm_num) trivial
      (by decide +kernel)
  have h₂ : Nat.Prime 22149492674086928081353 :=
    prime_of_lucasTest 5 [2, 2, 2, 3, 5323] [173378833005251801] (by norm_num) h₁
      (by decide +kernel)
  have h₃ : Nat.Prime 132896956044521568488119 :=
    prime_of_lucasTest 6 [2, 3] [22149492674086928081353] (by norm_num) h₂ (by decide +kernel)
  have h₄ : Nat.Prime 107590001 :=
    prime_of_lucasTest 3 [2, 2, 2, 2, 5, 5, 5, 5, 7, 29, 53] [] (by norm_num) trivial
      (by decide +kernel)
  have h₅ : Nat.Prime 255515944373312847190720520512484175977 :=
    prime_of_lucasTest 3 [2, 2, 2, 7, 7, 11, 1627, 2657, 4423, 41201, 96557, 7240687]
      [107590001] (by norm_num) h₄ (by decide +kernel)
  have h₆ : Nat.Prime
      205115282021455665897114700593932402728804164701536103180137503955397371 :=
    prime_of_lucasTest 10 [2, 3, 5, 29, 29, 31, 7723]
      [132896956044521568488119, 255515944373312847190720520512484175977]
      (by norm_num) ⟨h₃, h₅⟩ (by decide +kernel)
  exact prime_of_lucasTest 3 [2, 3, 7, 13441]
    [205115282021455665897114700593932402728804164701536103180137503955397371]
    (by norm_num) h₆ (by decide +kernel)

theorem prime_n_secp256k1 : secp256k1.n.Prime := by
  have h₁ : Nat.Prime 107361793816595537 :=
    prime_of_lucasTest 3 [2, 2, 2, 2, 16699, 85831, 4681609] [] (by norm_num) trivial
      (by decide +kernel)
  have h₂ : Nat.Prime 44706919 :=
    prime_of_lucasTest 6 [2, 3, 797, 9349] [] (by norm_num) trivial (by decide +kernel)
  have h₃ : Nat.Prime 174723607534414371449 :=
    prime_of_lucasTest 3 [2, 2, 2, 17, 59, 4051, 120233] [44706919] (by norm_num) h₂
      (by decide +kernel)
  have h₄ : Nat.Prime 297159362677 :=
    prime_of_lucasTest 2 [2, 2, 3, 3, 11, 461, 1627771] [] (by norm_num) trivial
      (by decide +kernel)
  have h₅ : Nat.Prime 545358713 :=
    prime_of_lucasTest 5 [2, 2, 2, 41, 59, 28181] [] (by norm_num) trivial (by decide +kernel)
  have h₆ : Nat.Prime 29047611873442575647497758179 :=
    prime_of_lucasTest 2 [2, 293, 305873] [545358713, 297159362677] (by norm_num) ⟨h₅, h₄⟩
      (by decide +kernel)
  have h₇ : Nat.Prime 341948486974166000522343609283189 :=
    prime_of_lucasTest 2 [2, 2, 3, 3, 3, 109] [29047611873442575647497758179] (by norm_num) h₆
      (by decide +kernel)
  exact prime_of_lucasTest 7 [2, 2, 2, 2, 2, 2, 3, 149, 631]
    [107361793816595537, 174723607534414371449, 341948486974166000522343609283189]
    (by norm_num) ⟨h₁, h₃, h₇⟩ (by decide +kernel)

/-- Minus seven is not a cube, since its power by a third of `p - 1` is not one. -/
theorem pow_three_ne_neg_seven (x : ZMod secp256k1.p) : x ^ 3 ≠ -7 := by
  have := Fact.mk prime_p_secp256k1
  have hseven : (-7 : ZMod secp256k1.p) = (secp256k1.p - 7 : ℕ) := by
    rw [Nat.cast_sub (by decide), ZMod.natCast_self, zero_sub, Nat.cast_ofNat]
  intro hcube
  have hne : x ≠ 0 := by
    rintro rfl
    rw [zero_pow (by decide), hseven, eq_comm, ZMod.natCast_eq_zero_iff] at hcube
    exact absurd hcube (by decide)
  have hpow : (-7 : ZMod secp256k1.p) ^ ((secp256k1.p - 1) / 3) = 1 := by
    rw [← hcube, ← pow_mul, Nat.mul_div_cancel' (by decide)]
    exact ZMod.pow_card_sub_one_eq_one hne
  rw [hseven, ← powMod_eq_one_iff prime_p_secp256k1.one_lt] at hpow
  exact absurd hpow (by decide +kernel)

end EllipticSignatures.Curve
