/-!
# Broken preconditions and refused inputs

An operation can fail to return a value in two ways, and every signature keeps them apart.

* A `Fault` is a precondition that the caller broke: elements of different fields were added, a
  divisor was zero, a source of randomness ran dry. `Checked α` is a value of `α` or a fault.
* A refusal is the answer to an input that is not acceptable, such as a malformed encoding.
  `Outcome ε α` is a value of `α`, a refusal with a cause in `ε`, or a fault.

Natural numbers have truncated subtraction and a total remainder in Lean. `Checked.sub` and
`Checked.mod` are the forms used wherever a difference below zero or a zero modulus is a fault.
-/

namespace EllipticSignatures

/-- A precondition broken by the caller. -/
inductive Fault where
  /-- A division by a zero element. -/
  | zeroDivisor
  /-- An operation on elements of different moduli. -/
  | mixedModuli
  /-- An element that does not fit the requested number of bytes. -/
  | elementTooWide
  /-- The identity where a public key is encoded. -/
  | identityKey
  /-- A random number drawn below zero. -/
  | emptyRange
  /-- A nonzero random number drawn below a bound of at most one. -/
  | trivialRange
  /-- Different numbers of points and scalars. -/
  | lengthMismatch
  /-- A reduction modulo zero. -/
  | zeroModulus
  /-- A difference below zero. -/
  | underflow
  /-- More random bytes asked for than the source still holds. -/
  | sourceExhausted
  /-- A search that visits every candidate and accepts none. -/
  | endlessSearch
  deriving DecidableEq, Repr

/-- The text that describes a fault; arithmetic faults have none. -/
def Fault.message? : Fault → Option String
  | .zeroDivisor => some "modular inverse of zero"
  | .mixedModuli => some "mixed field moduli"
  | .elementTooWide => some "field element wider than"
  | .identityKey => some "verifying keys are never the identity"
  | .emptyRange => some "random_below: bound must be nonzero"
  | .trivialRange => some "random_nonzero_below: bound must exceed 1"
  | .lengthMismatch => some "Points and scalars must have same length"
  | .zeroModulus | .underflow | .sourceExhausted | .endlessSearch => none

/-- A value, or the precondition that was broken on the way to it. -/
abbrev Checked (α : Type) := Except Fault α

namespace Checked

/-- The difference `a - b`, a fault when it is below zero. -/
def sub (a b : Nat) : Checked Nat :=
  if b ≤ a then .ok (a - b) else .error .underflow

/-- The remainder of `a` modulo `m`, a fault when `m` is zero. -/
def mod (a m : Nat) : Checked Nat :=
  if m = 0 then .error .zeroModulus else .ok (a % m)

@[simp]
theorem sub_of_le {a b : Nat} (h : b ≤ a) : sub a b = .ok (a - b) := by
  simp [sub, h]

@[simp]
theorem mod_of_pos {a m : Nat} (h : 0 < m) : mod a m = .ok (a % m) := by
  simp [mod, Nat.pos_iff_ne_zero.mp h]

end Checked

/-- How an operation ends without a value. -/
inductive Failure (ε : Type) where
  /-- The input is not acceptable. -/
  | refused (cause : ε)
  /-- A precondition was broken. -/
  | fault (cause : Fault)
  deriving DecidableEq, Repr

/-- A value, a refusal with a cause in `ε`, or a fault. -/
abbrev Outcome (ε α : Type) := Except (Failure ε) α

namespace Outcome

variable {ε ε' α : Type}

/-- The outcome that refuses the input. -/
def refuse (cause : ε) : Outcome ε α := .error (.refused cause)

/-- A checked value as an outcome that refuses nothing. -/
def ofChecked : Checked α → Outcome ε α
  | .ok a => .ok a
  | .error fault => .error (.fault fault)

/-- A value or an error as an outcome without faults. -/
def ofExcept : Except ε α → Outcome ε α
  | .ok a => .ok a
  | .error cause => .error (.refused cause)

/-- Renames the cause of a refusal and keeps values and faults. -/
def mapRefusal (rename : ε → ε') : Outcome ε α → Outcome ε' α
  | .ok a => .ok a
  | .error (.refused cause) => .error (.refused (rename cause))
  | .error (.fault fault) => .error (.fault fault)

instance : MonadLift (Except Fault) (Except (Failure ε)) := ⟨ofChecked⟩

@[simp]
theorem ofChecked_ok (a : α) : (ofChecked (.ok a) : Outcome ε α) = .ok a := rfl

@[simp]
theorem ofChecked_error (fault : Fault) :
    (ofChecked (.error fault) : Outcome ε α) = .error (.fault fault) := rfl

@[simp]
theorem liftM_checked (x : Checked α) : (liftM x : Outcome ε α) = ofChecked x := rfl

end Outcome

end EllipticSignatures
