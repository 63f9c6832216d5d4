import EllipticSignatures.Curve.Error
import EllipticSignatures.Text.Hexadecimal

/-!
# Elements of a prime field

A `FieldElement` is a residue together with its modulus. The modulus is data: it is not required
to be prime, and elements of different moduli can meet in one operation, which is then a fault.

Every operation keeps residues reduced. Sums, differences and negations correct by one modulus
instead of dividing, so they rely on their operands being reduced.
-/

namespace EllipticSignatures

/-- A residue and its modulus. -/
structure FieldElement where
  /-- The residue. -/
  value : Nat
  /-- The modulus. -/
  modulus : Nat
  deriving DecidableEq, Repr

namespace FieldElement

/-- The residue is below the modulus. -/
def Reduced (a : FieldElement) : Prop := a.value < a.modulus

instance (a : FieldElement) : Decidable a.Reduced := inferInstanceAs (Decidable (_ < _))

/-- The residue of a natural number. -/
def ofNat (value modulus : Nat) : Checked FieldElement := do
  return ⟨← Checked.mod value modulus, modulus⟩

/-- The zero element. -/
def zero (modulus : Nat) : FieldElement := ⟨0, modulus⟩

/-- The unit element. -/
def one (modulus : Nat) : Checked FieldElement := ofNat 1 modulus

/-- The residue of a big-endian integer. -/
def ofBytes (bytes : Bytes) (modulus : Nat) : Checked FieldElement := ofNat bytes.toNat modulus

/-- The element whose residue is written; refuses integers that are not below the modulus. -/
def ofCanonicalBytes (bytes : Bytes) (modulus : Nat) : Except CurveError FieldElement :=
  if bytes.toNat < modulus then .ok ⟨bytes.toNat, modulus⟩
  else .error (.invalidEncoding .notBelowModulus)

/-- The residue is zero. -/
def isZero (a : FieldElement) : Bool := a.value == 0

/-- The residue is odd. -/
def isOdd (a : FieldElement) : Bool := a.value % 2 == 1

/-- Elements of different moduli do not meet. -/
def requireSameField (a b : FieldElement) : Checked Unit :=
  if a.modulus = b.modulus then .ok () else .error .mixedModuli

/-- The sum. -/
def add (a b : FieldElement) : Checked FieldElement := do
  requireSameField a b
  let sum := a.value + b.value
  return ⟨if a.modulus ≤ sum then sum - a.modulus else sum, a.modulus⟩

/-- The difference. -/
def sub (a b : FieldElement) : Checked FieldElement := do
  requireSameField a b
  if b.value ≤ a.value then
    return ⟨a.value - b.value, a.modulus⟩
  else
    return ⟨(← Checked.sub a.modulus b.value) + a.value, a.modulus⟩

/-- The product. -/
def mul (a b : FieldElement) : Checked FieldElement := do
  requireSameField a b
  return ⟨← Checked.mod (a.value * b.value) a.modulus, a.modulus⟩

/-- The negation. -/
def neg (a : FieldElement) : Checked FieldElement :=
  if a.isZero then .ok a
  else do return ⟨← Checked.sub a.modulus a.value, a.modulus⟩

/-- The product of the element with itself. -/
def square (a : FieldElement) : Checked FieldElement := a.mul a

/-- The third power. -/
def cube (a : FieldElement) : Checked FieldElement := do (← a.square).mul a

/-- The sum of the element with itself. -/
def double (a : FieldElement) : Checked FieldElement := a.add a

/-- The power with a natural exponent. -/
def pow (a : FieldElement) (exponent : Nat) : Checked FieldElement :=
  if a.modulus = 0 then .error .zeroModulus
  else .ok ⟨powMod a.value exponent a.modulus, a.modulus⟩

/-- The power with exponent `m - 2`, the inverse when the modulus `m` is prime; refuses zero. -/
def invert (a : FieldElement) : Outcome CurveError FieldElement :=
  if a.isZero then .error (.refused .inverseOfZero)
  else Outcome.ofChecked do a.pow (← Checked.sub a.modulus 2)

/-- The quotient. A zero divisor is noticed before elements of different moduli. -/
def div (a b : FieldElement) : Checked FieldElement :=
  match b.invert with
  | .ok inverse => a.mul inverse
  | .error (.refused _) => .error .zeroDivisor
  | .error (.fault fault) => .error fault

/-- The residue of the residue under another modulus. -/
def reduceInto (a : FieldElement) (modulus : Nat) : Checked FieldElement := ofNat a.value modulus

/-- The residue as `width` big-endian bytes; a residue that needs more is a fault. -/
def toBytes (a : FieldElement) (width : Nat) : Checked Bytes :=
  if Bytes.width a.value ≤ width then .ok (Bytes.bigEndian width a.value)
  else .error .elementTooWide

/-- The residue in hexadecimal, as wide as the modulus. -/
def toText (a : FieldElement) : String :=
  "0x" ++ Hexadecimal.ofNatPadded (2 * byteLength a.modulus) a.value

/-- The residue in hexadecimal inside the name of its type. -/
def describe (a : FieldElement) : String := "FieldElement(" ++ a.toText ++ ")"

end FieldElement

end EllipticSignatures
