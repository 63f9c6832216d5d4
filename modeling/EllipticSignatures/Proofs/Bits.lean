import Mathlib.Data.Nat.ModEq
import Mathlib.Tactic.Ring
import EllipticSignatures.Bits
import EllipticSignatures.Proofs.Outcome

/-!
# Loops over binary digits

A number is read from its highest bit by halving: `k / 2 ^ i` is what a loop has read when the bits
at positions `i` and above are done, and `div_two_pow_eq` says what the bit at position `i` adds.

- `bitLength_le_iff` and `byteLength_le_iff`: the lengths measure the size of a number;
- `Bits.descend_ok`: the rule for a loop over bits, from an invariant that each step keeps;
- `Bits.descend_related`: the rule for two such loops side by side;
- `powMod_eq`: the modular power is the power modulo the modulus, for every exponent and modulus.
-/

namespace EllipticSignatures

/-- A number has at most `n` binary digits iff it is below `2 ^ n`. -/
theorem bitLength_le_iff {k n : ℕ} : bitLength k ≤ n ↔ k < 2 ^ n := by
  by_cases hk : k = 0
  · simp [hk]
  · rw [bitLength, if_neg hk, Nat.succ_le_iff, Nat.log2_lt hk]

theorem lt_two_pow_bitLength (k : ℕ) : k < 2 ^ bitLength k := bitLength_le_iff.mp le_rfl

/-- A number has at most `n` base-256 digits iff it is below `256 ^ n`. -/
theorem byteLength_le_iff {k n : ℕ} : byteLength k ≤ n ↔ k < 256 ^ n := by
  have h : byteLength k ≤ n ↔ bitLength k ≤ 8 * n := by
    rw [byteLength]
    omega
  rw [h, bitLength_le_iff, pow_mul]
  norm_num

theorem lt_pow_byteLength (k : ℕ) : k < 256 ^ byteLength k := byteLength_le_iff.mp le_rfl

/-- Reading the bit at position `i` doubles what has been read and adds the bit. -/
theorem div_two_pow_eq (k i : ℕ) : k / 2 ^ i = 2 * (k / 2 ^ (i + 1)) + (k.testBit i).toNat := by
  have h : k / 2 ^ (i + 1) = k / 2 ^ i / 2 := by rw [pow_succ, Nat.div_div_eq_div_mul]
  rw [h, Nat.testBit_eq_decide_div_mod_eq]
  rcases Nat.mod_two_eq_zero_or_one (k / 2 ^ i) with hb | hb <;> simp [hb] <;> omega

/-- Below position `i + 1` there is one more bit than below position `i`. -/
theorem mod_two_pow_succ_eq (k i : ℕ) :
    k % 2 ^ (i + 1) = k % 2 ^ i + (k.testBit i).toNat * 2 ^ i := by
  rw [pow_succ, Nat.mod_mul, Nat.testBit_eq_decide_div_mod_eq, mul_comm]
  rcases Nat.mod_two_eq_zero_or_one (k / 2 ^ i) with hb | hb <;> simp [hb]

theorem div_two_pow_of_bitLength_le {k i : ℕ} (h : bitLength k ≤ i) : k / 2 ^ i = 0 :=
  Nat.div_eq_of_lt (bitLength_le_iff.mp h)

namespace Bits

/-- A loop over the bits below `n` whose steps succeed and keep an invariant succeeds and ends in
the invariant. The invariant depends on the number of bits still to be read. -/
theorem descend_ok {α : Type} {step : α → ℕ → Checked α} (inv : ℕ → α → Prop)
    (hstep : ∀ i a, inv (i + 1) a → ∃ b, step a i = .ok b ∧ inv i b) :
    ∀ {n : ℕ} {a : α}, inv n a → ∃ b, descend step n a = .ok b ∧ inv 0 b
  | 0, a, h => ⟨a, rfl, h⟩
  | n + 1, a, h => by
    obtain ⟨b, hb, hinv⟩ := hstep n a h
    obtain ⟨r, hr, hend⟩ := descend_ok inv hstep hinv
    refine ⟨r, ?_, hend⟩
    rw [descend_succ, hb]
    exact hr

/-- Two loops over the same bits whose steps keep their accumulators related end in related
values. -/
theorem descend_related {α β : Type} {r : α → β → Prop} {step : α → ℕ → Checked α}
    {step' : β → ℕ → Checked β}
    (hstep : ∀ i a b, r a b → Checked.Related r (step a i) (step' b i)) :
    ∀ {n : ℕ} {a : α} {b : β}, r a b → Checked.Related r (descend step n a) (descend step' n b)
  | 0, _, _, h => .ok h
  | n + 1, a, b, h => (hstep n a b h).bind fun _ _ hnext => descend_related hstep hnext

end Bits

/-- The modular power with the bits at positions `n` and above of the exponent already read. -/
private theorem foldRev_powMod (base exponent m n : ℕ) :
    n.foldRev (fun i _ acc =>
        if exponent.testBit i then acc * acc % m * base % m else acc * acc % m)
      (base ^ (exponent / 2 ^ n) % m) = base ^ exponent % m := by
  induction n with
  | zero => simp
  | succ n ih =>
    have hsq (q : ℕ) : base ^ q % m * (base ^ q % m) % m = base ^ (2 * q) % m := by
      rw [← Nat.mul_mod, ← pow_add, two_mul]
    rw [Nat.foldRev_succ, hsq, ← ih, div_two_pow_eq exponent n]
    congr 1
    cases exponent.testBit n
    · simp
    · simp [pow_succ]

/-- `powMod` computes the power modulo `m`. -/
theorem powMod_eq (base exponent m : ℕ) : powMod base exponent m = base ^ exponent % m := by
  have h := foldRev_powMod base exponent m (bitLength exponent)
  rwa [div_two_pow_of_bitLength_le le_rfl, pow_zero] at h

end EllipticSignatures
