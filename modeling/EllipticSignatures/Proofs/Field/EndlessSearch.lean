import Mathlib.Algebra.Polynomial.Identities
import Mathlib.Data.Nat.Squarefree
import Mathlib.RingTheory.ZMod
import EllipticSignatures.Proofs.Field.AnyModulus

/-!
# When the search for a base never ends

The search for a base of `v` goes on at `t` as long as Euler's power of `t² - v` is one. Modulo an
odd prime it stops, but a modulus is not tested for primality. This file determines the odd moduli
and the numbers for which every `t` is passed by:

- `EulerTrivial m`: the modulus has no square factor, and each prime factor `q` satisfies
  `q - 1 ∣ (m - 1) / 2`, so that Euler's power of every unit is one. No odd prime is of this kind,
  and the Carmichael number 1729 is;
- `NowhereSquare m v`: the number is no square modulo any prime factor of the modulus, so that no
  `t² - v` shares a factor with the modulus.

`forall_pow_eq_one_iff` is the statement about residues, and
`sqrt_eq_endlessSearch_iff_nowhereSquare` the one about the program: `sqrt` searches in vain exactly
in this case, and then no number of tries is enough (`forall_searchBase_iff`).
-/

namespace EllipticSignatures

/-- The modulus has no square factor, and the order of the units modulo each prime factor divides
Euler's exponent. -/
structure EulerTrivial (m : ℕ) : Prop where
  /-- No square of a prime divides the modulus. -/
  squarefree : Squarefree m
  /-- Euler's exponent is a multiple of each `q - 1`. -/
  sub_one_dvd : ∀ q, q.Prime → q ∣ m → q - 1 ∣ (m - 1) / 2

/-- The number is no square modulo any prime factor of the modulus. -/
def NowhereSquare (m v : ℕ) : Prop := ∀ q, q.Prime → q ∣ m → ¬IsSquare (v : ZMod q)

/-- An odd prime `m` is not Euler-trivial: `m - 1` exceeds Euler's exponent. -/
theorem EulerTrivial.not_prime {m : ℕ} (h : EulerTrivial m) (hm : 2 < m) : ¬m.Prime := by
  intro hp
  have := Nat.le_of_dvd (by omega) (h.sub_one_dvd m hp dvd_rfl)
  omega

theorem eq_of_prime_dvd_1729 {q : ℕ} (hprime : q.Prime) (hq : q ∣ 1729) :
    q = 7 ∨ q = 13 ∨ q = 19 := by
  rw [show 1729 = 7 * (13 * 19) by norm_num, hprime.dvd_mul, hprime.dvd_mul] at hq
  exact hq.imp (Nat.prime_dvd_prime_iff_eq hprime (by decide)).mp
    (Or.imp (Nat.prime_dvd_prime_iff_eq hprime (by decide)).mp
      (Nat.prime_dvd_prime_iff_eq hprime (by decide)).mp)

/-- The exponent 864 is a multiple of 6, 12 and 18. -/
theorem eulerTrivial_1729 : EulerTrivial 1729 where
  squarefree := by decide +kernel
  sub_one_dvd q hprime hq := by
    obtain rfl | rfl | rfl := eq_of_prime_dvd_1729 hprime hq <;> decide

/-- A number is nowhere a square modulo 1729 iff it is none modulo 7, 13 and 19. -/
theorem nowhereSquare_1729_iff {v : ℕ} :
    NowhereSquare 1729 v ↔
      ¬IsSquare (v : ZMod 7) ∧ ¬IsSquare (v : ZMod 13) ∧ ¬IsSquare (v : ZMod 19) := by
  constructor
  · intro h
    exact ⟨h 7 (by decide) (by decide), h 13 (by decide) (by decide), h 19 (by decide) (by decide)⟩
  · rintro ⟨h₇, h₁₃, h₁₉⟩ q hprime hq
    obtain rfl | rfl | rfl := eq_of_prime_dvd_1729 hprime hq
    · exact h₇
    · exact h₁₃
    · exact h₁₉

/-! ## Residues modulo a prime factor -/

section PrimeFactor

variable {q e : ℕ} [Fact q.Prime] {a : ZMod q}

theorem not_isSquare_of_forall_pow_eq_one (he : e ≠ 0) (h : ∀ t : ZMod q, (t * t - a) ^ e = 1) :
    ¬IsSquare a := by
  rintro ⟨t, rfl⟩
  have ht := h t
  rw [sub_self, zero_pow he] at ht
  exact zero_ne_one ht

open Polynomial in
/-- Every unit is the quotient of two values `t² - a`, so its power is one with theirs. -/
theorem sub_one_dvd_of_forall_pow_eq_one (hq : q % 2 = 1)
    (h : ∀ t : ZMod q, (t * t - a) ^ e = 1) : q - 1 ∣ e := by
  have hunits (u : (ZMod q)ˣ) : u ^ e = 1 := by
    -- The quadratics `X² - a` and `-u (X² - a)` have values that cancel, by counting.
    obtain ⟨t, s, hroot⟩ := FiniteField.exists_root_sum_quadratic
      (f := X ^ 2 - C a) (g := C (-(u : ZMod q)) * (X ^ 2 - C a))
      (by compute_degree!)
      (by rw [degree_C_mul (neg_ne_zero.mpr u.ne_zero)]; compute_degree!)
      (by rw [ZMod.card, hq])
    have hquotient : t * t - a = u * (s * s - a) := by
      simp only [eval_sub, eval_pow, eval_X, eval_C, eval_mul] at hroot
      linear_combination hroot
    have hpow := h t
    rw [hquotient, mul_pow, h s, mul_one] at hpow
    exact Units.ext (by rw [Units.val_pow_eq_pow_val, hpow, Units.val_one])
  have hcard := (FiniteField.forall_pow_eq_one_iff (ZMod q) e).mp hunits
  rwa [ZMod.card] at hcard

end PrimeFactor

/-! ## Residues modulo the product -/

section Modulus

variable {m v : ℕ}

/-- If Euler's power is one for every `t² - a`, then so is its derivative in the direction of an
element of square zero, which leaves no such element but zero. -/
theorem squarefree_of_forall_pow_eq_one (hodd : m % 2 = 1) (hm : 1 < m) {a : ZMod m}
    (h : ∀ t : ZMod m, (t * t - a) ^ ((m - 1) / 2) = 1) : Squarefree m := by
  refine (isReduced_zmod.mp ?_).resolve_right (by omega)
  refine (isReduced_iff_pow_one_lt 2 one_lt_two).mpr ?_
  intro ε hε
  set e := (m - 1) / 2 with he
  set w := 1 * 1 - a with hw
  have hone : w ^ e = 1 := h 1
  have hmoved := h (1 + ε)
  have hvalue : (1 + ε) * (1 + ε) - a = w + 2 * ε := by
    rw [hw]
    linear_combination hε
  -- The power of `w + 2 ε` is that of `w` and a multiple of `ε`.
  obtain ⟨k, hexpand⟩ := Polynomial.powAddExpansion w (2 * ε) e
  rw [hvalue, hexpand, hone] at hmoved
  have hlinear : (2 * e : ZMod m) * (w ^ (e - 1) * ε) = 0 := by
    linear_combination hmoved - 4 * k * hε
  have htwice : (2 * e : ZMod m) = -1 := by
    have hcast : ((2 * e + 1 : ℕ) : ZMod m) = 0 := by
      rw [show 2 * e + 1 = m by omega, ZMod.natCast_self]
    push_cast at hcast
    linear_combination hcast
  rw [htwice] at hlinear
  have hunit : w * w ^ (e - 1) = 1 := by
    rw [← pow_succ', show e - 1 + 1 = e by omega, hone]
  linear_combination -w * hlinear - ε * hunit

/-- A residue that vanishes modulo every prime factor of a squarefree modulus is zero. -/
theorem eq_zero_of_forall_castHom_eq_zero (hm : Squarefree m) {x : ZMod m}
    (h : ∀ q, q.Prime → ∀ hq : q ∣ m, ZMod.castHom hq (ZMod q) x = 0) : x = 0 := by
  obtain ⟨n, rfl⟩ : ∃ n : ℕ, (n : ZMod m) = x := by
    have : NeZero m := ⟨hm.ne_zero⟩
    exact ZMod.natCast_zmod_surjective x
  rw [ZMod.natCast_eq_zero_iff, ← Nat.prod_primeFactors_of_squarefree hm]
  refine Finset.prod_primes_dvd n (fun q hq => (Nat.prime_of_mem_primeFactors hq).prime) ?_
  intro q hq
  have hzero := h q (Nat.prime_of_mem_primeFactors hq) (Nat.dvd_of_mem_primeFactors hq)
  rwa [map_natCast, ZMod.natCast_eq_zero_iff] at hzero

/-- Modulo an Euler-trivial number, Euler's power is one for every residue that no prime factor of
the modulus divides, by Fermat's theorem for each of them. -/
theorem EulerTrivial.pow_eq_one (h : EulerTrivial m) {x : ZMod m}
    (hx : ∀ q, q.Prime → ∀ hq : q ∣ m, ZMod.castHom hq (ZMod q) x ≠ 0) :
    x ^ ((m - 1) / 2) = 1 := by
  rw [← sub_eq_zero]
  apply eq_zero_of_forall_castHom_eq_zero h.squarefree
  intro q hprime hq
  have := Fact.mk hprime
  obtain ⟨k, hk⟩ := h.sub_one_dvd q hprime hq
  rw [map_sub, map_pow, map_one, hk, pow_mul, ZMod.pow_card_sub_one_eq_one (hx q hprime hq),
    one_pow, sub_self]

/-- Modulo an odd number above one, Euler's power is one for all `t² - v` iff the modulus is
Euler-trivial and `v` is nowhere a square. -/
theorem forall_pow_eq_one_iff (hodd : m % 2 = 1) (hm : 1 < m) :
    (∀ t : ZMod m, (t * t - v) ^ ((m - 1) / 2) = 1) ↔ EulerTrivial m ∧ NowhereSquare m v := by
  constructor
  · intro h
    -- What holds modulo `m` holds modulo each of its factors.
    have hfactor (q : ℕ) (hq : q ∣ m) (t : ZMod q) : (t * t - v) ^ ((m - 1) / 2) = 1 := by
      obtain ⟨t, rfl⟩ := ZMod.ringHom_surjective (ZMod.castHom hq (ZMod q)) t
      rw [← map_natCast (ZMod.castHom hq (ZMod q)) v, ← map_mul, ← map_sub, ← map_pow, h t, map_one]
    refine ⟨⟨squarefree_of_forall_pow_eq_one hodd hm h, ?_⟩, ?_⟩
    · intro q hprime hq
      have := Fact.mk hprime
      have hqodd : q % 2 = 1 := Nat.odd_iff.mp ((Nat.odd_iff.mpr hodd).of_dvd_nat hq)
      exact sub_one_dvd_of_forall_pow_eq_one hqodd (hfactor q hq)
    · intro q hprime hq
      have := Fact.mk hprime
      exact not_isSquare_of_forall_pow_eq_one (by omega) (hfactor q hq)
  · rintro ⟨htrivial, hnowhere⟩ t
    apply htrivial.pow_eq_one
    intro q hprime hq hzero
    rw [map_sub, map_mul, map_natCast, sub_eq_zero] at hzero
    exact hnowhere q hprime hq ⟨_, hzero.symm⟩

/-- A number that is nowhere a square shares no factor with the modulus. -/
theorem NowhereSquare.pow_eq_one (hnowhere : NowhereSquare m v) (htrivial : EulerTrivial m) :
    (v : ZMod m) ^ ((m - 1) / 2) = 1 := by
  apply htrivial.pow_eq_one
  intro q hprime hq hzero
  rw [map_natCast] at hzero
  exact hnowhere q hprime hq ⟨0, by rw [hzero, mul_zero]⟩

end Modulus

/-! ## The search -/

namespace FieldElement

variable {m : ℕ} [NeZero m]

/-- The search is in vain iff every candidate has character one. -/
theorem searchBase_eq_endlessSearch_iff (a u : ZMod m) :
    ∀ (tries : ℕ) (t : ZMod m),
      searchBase (ofZMod a) (ofZMod u) tries (ofZMod t) = .error .endlessSearch ↔
        ∀ i < tries,
          (ofZMod ((t + (i : ZMod m) * u) * (t + (i : ZMod m) * u) - a)).legendre = .ok 1
  | 0, _ => by simp [searchBase]
  | tries + 1, t => by
    have hshift (i : ℕ) : t + (i + 1 : ℕ) * u = t + u + i * u := by
      push_cast
      ring
    rw [Nat.forall_lt_succ_left]
    simp only [hshift, Nat.cast_zero, zero_mul, add_zero,
      ← searchBase_eq_endlessSearch_iff a u tries (t + u)]
    -- The first candidate decides whether the search goes on.
    obtain hsymbol | hsymbol | hsymbol := legendre_cases (t * t - a) <;>
      simp [searchBase, hsymbol]

/-- As many tries as there are residues see every candidate. -/
theorem searchBase_modulus_iff (a : ZMod m) :
    searchBase (ofZMod a) (ofZMod (1 : ZMod m)) m (ofZMod (0 : ZMod m)) =
        .error .endlessSearch ↔
      ∀ t : ZMod m, (ofZMod (t * t - a)).legendre = .ok 1 := by
  simp only [searchBase_eq_endlessSearch_iff, mul_one, zero_add]
  constructor
  · intro h t
    simpa using h t.val (ZMod.val_lt t)
  · intro h i _
    exact h i

/-- The search is in vain with as many tries as there are residues iff it is in vain with every
number of tries. -/
theorem forall_searchBase_iff (a : ZMod m) :
    (∀ tries, searchBase (ofZMod a) (ofZMod (1 : ZMod m)) tries (ofZMod (0 : ZMod m)) =
        .error .endlessSearch) ↔
      searchBase (ofZMod a) (ofZMod (1 : ZMod m)) m (ofZMod (0 : ZMod m)) =
        .error .endlessSearch := by
  refine ⟨fun h => h m, ?_⟩
  intro h tries
  simp only [searchBase_eq_endlessSearch_iff, mul_one, zero_add]
  intro i _
  exact (searchBase_modulus_iff a).mp h i

/-- For an odd modulus, the square root of a residue is searched for in vain iff the modulus is
Euler-trivial and the residue is nowhere a square. -/
theorem sqrt_eq_endlessSearch_iff_nowhereSquare (hodd : m % 2 = 1) (hm : 1 < m) (v : ℕ) :
    (ofZMod (v : ZMod m)).sqrt = .error .endlessSearch ↔ EulerTrivial m ∧ NowhereSquare m v := by
  have hne {x : ZMod m} (hx : x ^ ((m - 1) / 2) = 1) : x ≠ 0 := by
    rintro rfl
    have := Fact.mk hm
    rw [zero_pow (by omega)] at hx
    exact zero_ne_one hx
  have hcharacter (x : ZMod m) : (ofZMod x).legendre = .ok 1 ↔ x ^ ((m - 1) / 2) = 1 :=
    legendre_eq_one_iff.trans ⟨And.right, fun hx => ⟨hne hx, hx⟩⟩
  rw [sqrt_eq_endlessSearch_iff, searchBase_modulus_iff]
  simp only [hcharacter, forall_pow_eq_one_iff hodd hm]
  refine ⟨And.right, ?_⟩
  rintro ⟨htrivial, hnowhere⟩
  exact ⟨hnowhere.pow_eq_one htrivial, htrivial, hnowhere⟩

end FieldElement

end EllipticSignatures
