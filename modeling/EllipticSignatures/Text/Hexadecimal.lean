import EllipticSignatures.Bytes

/-!
# Hexadecimal text

Byte strings are written with two lower-case digits for each byte and read with digits of either
case. Natural numbers are written without leading zeros.
-/

namespace EllipticSignatures.Hexadecimal

/-- The lower-case digit of a value below sixteen. -/
def digit (value : Nat) : Char :=
  if value < 10 then Char.ofNat (48 + value) else Char.ofNat (87 + value)

/-- The value of a digit of either case. -/
def value? (c : Char) : Option Nat :=
  if '0' ≤ c ∧ c ≤ '9' then some (c.toNat - 48)
  else if 'a' ≤ c ∧ c ≤ 'f' then some (c.toNat - 87)
  else if 'A' ≤ c ∧ c ≤ 'F' then some (c.toNat - 55)
  else none

/-- Two digits for each byte. -/
def encode (bytes : Bytes) : String :=
  String.ofList (bytes.flatMap fun b => [digit (b.toNat / 16), digit (b.toNat % 16)])

/-- Reads two digits for each byte. -/
def decodeChars? : List Char → Option Bytes
  | [] => some []
  | [_] => none
  | high :: low :: rest => do
    let h ← value? high
    let l ← value? low
    return UInt8.ofNat (16 * h + l) :: (← decodeChars? rest)

/-- The bytes that the text writes; refuses an odd number of characters and other characters. -/
def decode? (text : String) : Option Bytes := decodeChars? text.toList

/-- The digits of a number without leading zeros; zero is a single digit. -/
def ofNat (n : Nat) : String :=
  if n = 0 then "0" else String.ofList ((Radix.digits 16 n).map digit)

/-- The digits of a number, filled with zeros on the left up to `width`. -/
def ofNatPadded (width n : Nat) : String :=
  let digits := (ofNat n).toList
  String.ofList (List.replicate (width - digits.length) '0' ++ digits)

/-- The number that the digits write; refuses the empty text and other characters. -/
def toNat? (text : String) : Option Nat :=
  match text.toList with
  | [] => none
  | chars => (chars.mapM value?).map (Radix.ofDigits 16)

end EllipticSignatures.Hexadecimal
