import EllipticSignatures.Bytes
import EllipticSignatures.Signature.Error

/-!
# Stored values

Values are stored as records of fixed-width little-endian words: counts in eight bytes, digits and
variant tags in four. A natural number is the list of its base-2³² digits, least significant
first and without leading zeros. A reader takes its part from the front of the bytes and leaves
the rest.

The text form of stored values is compact JSON: objects and arrays without white space, numbers as
lists of their base-2³² digits, byte strings as lists of bytes.
-/

namespace EllipticSignatures

/-- Why bytes are not the record of a value. -/
inductive RecordError where
  /-- The bytes end too early. -/
  | truncated
  /-- The modulus of a field element is at most one. -/
  | smallModulus
  /-- The residue of a field element is not below its modulus. -/
  | unreduced
  /-- The tag names no variant. -/
  | unknownVariant (tag : Nat)
  /-- The value is refused by a curve operation. -/
  | curve (cause : CurveError)
  /-- The value is refused as a key or signature. -/
  | signature (cause : SignatureError)
  deriving DecidableEq, Repr

/-- The wording of an error; bytes that end too early have none. -/
def RecordError.message? : RecordError → Option String
  | .truncated => none
  | .smallModulus => some "field modulus must exceed 1"
  | .unreduced => some "field element is not reduced"
  | .unknownVariant tag =>
    some ("invalid value: integer \x60" ++ toString tag ++
      "\x60, expected variant index 0 <= i < 2")
  | .curve cause => some cause.message
  | .signature cause => some cause.message

namespace Record

/-- A reader takes a value from the front of the bytes. -/
abbrev Reader (α : Type) := StateT Bytes (Except RecordError) α

/-- A little-endian word of the given number of bytes. -/
def word (width n : Nat) : Bytes := Bytes.littleEndian width n

/-- A count of the items that follow. -/
def count (n : Nat) : Bytes := word 8 n

/-- The base of digits, 2³². -/
def digitBase : Nat := 0x100000000

/-- The number of base-2³² digits of `n`; zero has none. -/
def digitCount (n : Nat) : Nat := (bitLength n + 31) / 32

/-- The base-2³² digits of `n`, least significant first. -/
def digits (n : Nat) : List Nat := Radix.low digitBase (digitCount n) n

/-- A natural number as counted digits. -/
def number (n : Nat) : Bytes := count (digitCount n) ++ (digits n).flatMap (word 4)

/-- A byte string after its length. -/
def byteString (bytes : Bytes) : Bytes := count bytes.length ++ bytes

/-- Takes the given number of bytes. -/
def takeBytes (width : Nat) : Reader Bytes := fun bytes =>
  if bytes.length < width then .error .truncated
  else .ok (bytes.take width, bytes.drop width)

/-- Takes a little-endian word. -/
def takeWord (width : Nat) : Reader Nat := do return Bytes.ofLittleEndian (← takeBytes width)

/-- Takes as many items as counted. -/
def takeItems {α : Type} (item : Reader α) : Nat → Reader (List α)
  | 0 => return []
  | n + 1 => do
    let first ← item
    return first :: (← takeItems item n)

/-- Takes a natural number; leading zero digits do not matter. -/
def takeNumber : Reader Nat := do
  return Radix.value digitBase (← takeItems (takeWord 4) (← takeWord 8))

/-- Takes a byte string. -/
def takeByteString : Reader Bytes := do takeBytes (← takeWord 8)

/-- Reads a value from the front of the bytes and ignores the rest. -/
def read {α : Type} (reader : Reader α) (bytes : Bytes) : Except RecordError α :=
  (reader bytes).map (·.1)

end Record

namespace JsonText

/-- A list of natural numbers. -/
def numbers (ns : List Nat) : String := "[" ++ ",".intercalate (ns.map toString) ++ "]"

/-- A natural number as the list of its digits, least significant first. -/
def digits (n : Nat) : String := numbers (Record.digits n)

/-- A byte string as the list of its bytes. -/
def byteString (bytes : Bytes) : String := numbers (bytes.map UInt8.toNat)

/-- An object with the given members, whose values are texts already. -/
def object (members : List (String × String)) : String :=
  let member (m : String × String) : String := "\"" ++ m.1 ++ "\":" ++ m.2
  "\x7b" ++ ",".intercalate (members.map member) ++ "\x7d"

end JsonText

end EllipticSignatures
