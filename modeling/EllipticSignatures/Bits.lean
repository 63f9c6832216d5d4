import EllipticSignatures.Fault

/-!
# Binary digits of natural numbers

Exponents and scalars are read bit by bit. `bitLength k` is the number of binary digits of `k`,
`descend` runs a step over positions from the highest to the lowest, and `powMod` is the modular
power computed in that order.
-/

namespace EllipticSignatures

/-- The number of binary digits of `k`; zero has none. -/
def bitLength (k : Nat) : Nat := if k = 0 then 0 else k.log2 + 1

/-- The number of base-256 digits of `k`; zero has none. -/
def byteLength (k : Nat) : Nat := (bitLength k + 7) / 8

@[simp]
theorem bitLength_zero : bitLength 0 = 0 := rfl

/-- Only zero has no binary digits. -/
@[simp]
theorem bitLength_eq_zero_iff {k : Nat} : bitLength k = 0 ↔ k = 0 := by
  by_cases h : k = 0 <;> simp [bitLength, h]

namespace Bits

/-- Runs `step` on the bit positions `n - 1, …, 0` in this order. -/
def descend {α : Type} (step : α → Nat → Checked α) : Nat → α → Checked α
  | 0, a => .ok a
  | n + 1, a => do descend step n (← step a n)

@[simp]
theorem descend_zero {α : Type} (step : α → Nat → Checked α) (a : α) :
    descend step 0 a = .ok a := rfl

/-- The highest position is taken first. -/
theorem descend_succ {α : Type} (step : α → Nat → Checked α) (n : Nat) (a : α) :
    descend step (n + 1) a = step a n >>= descend step n := rfl

end Bits

/-- The power `base ^ exponent` modulo `m`, by squaring from the highest bit of the exponent. -/
def powMod (base exponent m : Nat) : Nat :=
  (bitLength exponent).foldRev
    (fun i _ acc => if exponent.testBit i then acc * acc % m * base % m else acc * acc % m) (1 % m)

end EllipticSignatures
