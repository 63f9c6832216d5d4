import EllipticSignatures.Bits

/-!
# Positional notation

A natural number is a list of digits in some base. `Radix.low` gives a fixed number of digits,
least significant first, `Radix.value` reads digits back, and `Radix.digits` writes a number from
its most significant digit without leading zeros.
-/

namespace EllipticSignatures.Radix

/-- The `width` lowest digits of `n`, least significant first. -/
def low (base : Nat) : (width : Nat) → (n : Nat) → List Nat
  | 0, _ => []
  | width + 1, n => n % base :: low base width (n / base)

/-- The number whose digits, least significant first, are given. -/
def value (base : Nat) : List Nat → Nat
  | [] => 0
  | d :: ds => d + base * value base ds

/-- The digits of `n`, most significant first and without leading zeros; zero has none. -/
def digits (base n : Nat) : List Nat :=
  (low base (bitLength n) n).reverse.dropWhile (· == 0)

/-- The number whose digits, most significant first, are given. -/
def ofDigits (base : Nat) (ds : List Nat) : Nat :=
  ds.foldl (fun acc d => acc * base + d) 0

@[simp]
theorem length_low (base width n : Nat) : (low base width n).length = width := by
  induction width generalizing n with
  | zero => rfl
  | succ width ih => simp [low, ih]

/-- Digits are below the base. -/
theorem lt_of_mem_low {base width n d : Nat} (h : 0 < base) (hd : d ∈ low base width n) :
    d < base := by
  induction width generalizing n with
  | zero => simp [low] at hd
  | succ width ih =>
    rcases List.mem_cons.mp hd with rfl | hd
    · exact Nat.mod_lt n h
    · exact ih hd

end EllipticSignatures.Radix
