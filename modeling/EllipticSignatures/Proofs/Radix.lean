import Mathlib.Data.Nat.Digits.Defs
import Mathlib.Tactic.Ring
import EllipticSignatures.Radix
import EllipticSignatures.Proofs.Bits

/-!
# Digits determine numbers

Reading a fixed number of digits back gives the number modulo a power of the base, and digits below
the base are the lowest digits of the number that they write. Without leading zeros there is one
way to write a number:

- `ofDigits_digits`: the digits of a number write it;
- `digits_ofDigits`: the digits of a written number are the written ones without leading zeros.
-/

namespace EllipticSignatures.Radix

variable {base : ℕ}

theorem value_low (base width n : ℕ) : value base (low base width n) = n % base ^ width := by
  induction width generalizing n with
  | zero => simp [low, value, Nat.mod_one]
  | succ width ih => rw [low, value, ih, pow_succ', Nat.mod_mul]

theorem low_value {ds : List ℕ} (h : ∀ d ∈ ds, d < base) :
    low base ds.length (value base ds) = ds := by
  induction ds with
  | nil => rfl
  | cons d ds ih =>
    obtain ⟨hd, hds⟩ := List.forall_mem_cons.mp h
    have hpos : 0 < base := Nat.zero_lt_of_lt hd
    -- The first digit is the remainder, and the quotient is the number of the others.
    rw [List.length_cons, low, value, Nat.add_mul_mod_self_left, Nat.mod_eq_of_lt hd,
      Nat.add_mul_div_left _ _ hpos, Nat.div_eq_of_lt hd, zero_add, ih hds]

theorem value_lt {ds : List ℕ} (hpos : 0 < base) (h : ∀ d ∈ ds, d < base) :
    value base ds < base ^ ds.length := by
  -- The number is a remainder modulo the power of the base.
  rw [← low_value h, value_low, length_low]
  exact Nat.mod_lt _ (Nat.pow_pos hpos)

theorem low_zero (base width : ℕ) : low base width 0 = List.replicate width 0 := by
  induction width with
  | zero => rfl
  | succ width ih => rw [low, Nat.zero_mod, Nat.zero_div, ih, List.replicate_succ]

/-- The digits above the lowest ones are those of the quotient. -/
theorem low_add (base width more n : ℕ) :
    low base (width + more) n = low base width n ++ low base more (n / base ^ width) := by
  induction width generalizing n with
  | zero => simp [low]
  | succ width ih =>
    rw [Nat.succ_add, low, ih, low, List.cons_append, Nat.div_div_eq_div_mul, ← pow_succ']

/-- Digits are read from the most significant one by `ofDigits` and from the least significant one
by `value`. -/
theorem ofDigits_eq_value (base : ℕ) (ds : List ℕ) : ofDigits base ds = value base ds.reverse := by
  rw [ofDigits, ← List.foldr_reverse]
  induction ds.reverse with
  | nil => rfl
  | cons d ds ih =>
    rw [List.foldr_cons, ih, value]
    ring

/-- The number of a list of digits is the one that Mathlib defines. -/
theorem value_eq_natOfDigits (base : ℕ) (ds : List ℕ) : value base ds = Nat.ofDigits base ds := by
  induction ds with
  | nil => rfl
  | cons d ds ih => rw [value, ih, Nat.ofDigits_cons]

theorem value_append (base : ℕ) (ds es : List ℕ) :
    value base (ds ++ es) = value base ds + base ^ ds.length * value base es := by
  induction ds with
  | nil => simp [value]
  | cons d ds ih =>
    rw [List.cons_append, value, ih, value, List.length_cons, pow_succ']
    ring

/-- The first digit counts as often as the power of the base that the other digits stay below. -/
theorem ofDigits_cons (base d : ℕ) (ds : List ℕ) :
    ofDigits base (d :: ds) = d * base ^ ds.length + ofDigits base ds := by
  rw [ofDigits_eq_value, ofDigits_eq_value, List.reverse_cons, value_append, List.length_reverse,
    value, value, mul_zero, add_zero, add_comm, mul_comm d]

theorem ofDigits_cons_zero (base : ℕ) (ds : List ℕ) :
    ofDigits base (0 :: ds) = ofDigits base ds := by
  rw [ofDigits_cons, zero_mul, zero_add]

/-- Leading zeros do not change the number. -/
theorem ofDigits_dropWhile (base : ℕ) (ds : List ℕ) :
    ofDigits base (ds.dropWhile (· == 0)) = ofDigits base ds := by
  induction ds with
  | nil => rfl
  | cons d ds ih =>
    by_cases hd : d = 0
    · rw [hd, List.dropWhile_cons_of_pos (by rfl), ih, ofDigits_cons_zero]
    · rw [List.dropWhile_cons_of_neg (by simpa using hd)]

theorem ofDigits_replicate_append (base zeros : ℕ) (ds : List ℕ) :
    ofDigits base (List.replicate zeros 0 ++ ds) = ofDigits base ds := by
  induction zeros with
  | zero => rfl
  | succ zeros ih => rw [List.replicate_succ, List.cons_append, ofDigits_cons_zero, ih]

/-! ## Numbers without leading zeros -/

section Digits

variable (hbase : 2 ≤ base)

include hbase

theorem lt_pow_bitLength (n : ℕ) : n < base ^ bitLength n :=
  (lt_two_pow_bitLength n).trans_le (Nat.pow_le_pow_left hbase _)

/-- The digits are those of any sufficient width, without leading zeros. -/
theorem digits_eq {n width : ℕ} (h : n < base ^ width) :
    digits base n = (low base width n).reverse.dropWhile (· == 0) := by
  -- More digits than needed only add leading zeros, which `dropWhile` takes off.
  have widen {v w : ℕ} (hvw : v ≤ w) (hn : n < base ^ v) :
      (low base w n).reverse.dropWhile (· == 0) = (low base v n).reverse.dropWhile (· == 0) := by
    obtain ⟨more, rfl⟩ := Nat.exists_eq_add_of_le hvw
    rw [low_add, Nat.div_eq_of_lt hn, low_zero, List.reverse_append, List.reverse_replicate,
      List.dropWhile_append_of_pos (by simp)]
  rw [digits]
  rcases Nat.le_total (bitLength n) width with hle | hle
  · exact (widen hle (lt_pow_bitLength hbase n)).symm
  · exact widen hle h

theorem ofDigits_digits (n : ℕ) : ofDigits base (digits base n) = n := by
  rw [digits, ofDigits_dropWhile, ofDigits_eq_value, List.reverse_reverse, value_low,
    Nat.mod_eq_of_lt (lt_pow_bitLength hbase n)]

theorem digits_ofDigits {ds : List ℕ} (h : ∀ d ∈ ds, d < base) :
    digits base (ofDigits base ds) = ds.dropWhile (· == 0) := by
  have hrev : ∀ d ∈ ds.reverse, d < base := fun d hd => h d (List.mem_reverse.mp hd)
  rw [ofDigits_eq_value, digits_eq hbase (value_lt (by omega) hrev), low_value hrev,
    List.reverse_reverse]

theorem lt_of_mem_digits {n d : ℕ} (hd : d ∈ digits base n) : d < base := by
  rw [digits] at hd
  have hmem := List.mem_reverse.mp ((List.dropWhile_sublist _).subset hd)
  exact lt_of_mem_low (by omega) hmem

omit hbase in
/-- The first digit is not zero. -/
theorem takeWhile_digits (base n : ℕ) : (digits base n).takeWhile (· == 0) = [] := by
  rw [digits]
  -- This holds of the rest that `dropWhile` leaves of any list.
  generalize (low base (bitLength n) n).reverse = ds
  induction ds with
  | nil => rfl
  | cons d ds ih =>
    by_cases hd : d = 0
    · simpa [hd] using ih
    · simp [hd]

end Digits

end EllipticSignatures.Radix
