import Mathlib.NumberTheory.LucasPrimality
import EllipticSignatures.Proofs.Bits

/-!
# Lucas's test

A number `p` is prime if some residue modulo `p` has order `p - 1`. The test computes modular powers
only, so it settles the primality of moduli and group orders of cryptographic size, given the prime
factors of the number before them.
-/

namespace EllipticSignatures

/-- Some power of `a` shows that the order of `a` modulo `p` is `p - 1`, whose prime factors are
given with multiplicity. -/
def lucasTest (p a : ℕ) (factors : List ℕ) : Bool :=
  decide (1 < p) && factors.prod == p - 1 && powMod a (p - 1) p == 1 &&
    factors.all fun q => powMod a ((p - 1) / q) p != 1

/-- A power is one modulo `p` iff `powMod` computes one. -/
theorem powMod_eq_one_iff {p : ℕ} (hp : 1 < p) (a k : ℕ) :
    powMod a k p = 1 ↔ (a : ZMod p) ^ k = 1 := by
  have hcast : (a : ZMod p) ^ k = 1 ↔ ((a ^ k : ℕ) : ZMod p) = (1 : ℕ) := by
    rw [Nat.cast_pow, Nat.cast_one]
  rw [hcast, ZMod.natCast_eq_natCast_iff, Nat.ModEq, Nat.mod_eq_of_lt hp, powMod_eq]

/-- The prime factors are given in two lists, those that are seen to be prime at once and those that
need a test of their own. -/
theorem prime_of_lucasTest {p : ℕ} (a : ℕ) (small large : List ℕ)
    (hsmall : small.Forall Nat.Prime) (hlarge : large.Forall Nat.Prime)
    (htest : lucasTest p a (small ++ large)) : p.Prime := by
  have hprime := List.forall_append.mpr ⟨hsmall, hlarge⟩
  simp only [lucasTest, Bool.and_eq_true, decide_eq_true_eq, beq_iff_eq, List.all_eq_true,
    bne_iff_ne, ne_eq] at htest
  obtain ⟨⟨⟨hp, hprod⟩, hpow⟩, hne⟩ := htest
  apply lucas_primality p a ((powMod_eq_one_iff hp _ _).mp hpow)
  intro q hq hdvd
  -- A prime factor of the product is one of the factors.
  rw [← hprod, hq.prime.dvd_prod_iff] at hdvd
  obtain ⟨r, hr, hqr⟩ := hdvd
  obtain rfl := (Nat.prime_dvd_prime_iff_eq hq (List.forall_iff_forall_mem.mp hprime r hr)).mp hqr
  exact (powMod_eq_one_iff hp _ _).not.mp (hne q hr)

end EllipticSignatures
