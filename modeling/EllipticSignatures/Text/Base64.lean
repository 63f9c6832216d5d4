import EllipticSignatures.Bytes

/-!
# Base 64

Three bytes are written as four digits of six bits. A last group of one or two bytes is filled up
with padding, and the bits of its last digit that belong to no byte are zero. Every byte string
has one written form.
-/

namespace EllipticSignatures.Base64

/-- The digits in order of value. -/
def alphabet : List Char :=
  ['A', 'B', 'C', 'D', 'E', 'F', 'G', 'H', 'I', 'J', 'K', 'L', 'M', 'N', 'O', 'P',
    'Q', 'R', 'S', 'T', 'U', 'V', 'W', 'X', 'Y', 'Z', 'a', 'b', 'c', 'd', 'e', 'f',
    'g', 'h', 'i', 'j', 'k', 'l', 'm', 'n', 'o', 'p', 'q', 'r', 's', 't', 'u', 'v',
    'w', 'x', 'y', 'z', '0', '1', '2', '3', '4', '5', '6', '7', '8', '9', '+', '/']

/-- The character that fills the last group. -/
def padding : Char := '='

/-- The character of a digit. -/
def digit (value : Nat) : Char := alphabet.getD value padding

/-- The value of a character. -/
def value? (c : Char) : Option Nat := alphabet.idxOf? c

/-- The characters that write a byte string. -/
def encodeChars : Bytes → List Char
  | [] => []
  | [a] => [digit (a.toNat / 4), digit (a.toNat % 4 * 16), padding, padding]
  | [a, b] =>
    [digit (a.toNat / 4), digit (a.toNat % 4 * 16 + b.toNat / 16), digit (b.toNat % 16 * 4),
      padding]
  | a :: b :: c :: rest =>
    digit (a.toNat / 4) :: digit (a.toNat % 4 * 16 + b.toNat / 16) ::
      digit (b.toNat % 16 * 4 + c.toNat / 64) :: digit (c.toNat % 64) :: encodeChars rest

/-- The bytes of a last group that ends in padding; refuses spare bits other than zero. -/
def decodeLast? (c₀ c₁ c₂ : Char) : Option Bytes := do
  let v₀ ← value? c₀
  let v₁ ← value? c₁
  if c₂ = padding then
    if v₁ % 16 = 0 then return [UInt8.ofNat (v₀ * 4 + v₁ / 16)] else none
  else
    let v₂ ← value? c₂
    if v₂ % 4 = 0 then
      return [UInt8.ofNat (v₀ * 4 + v₁ / 16), UInt8.ofNat (v₁ % 16 * 16 + v₂ / 4)]
    else none

/-- The byte string that the characters write; refuses every form that is not the written one. -/
def decodeChars? : List Char → Option Bytes
  | [] => some []
  | c₀ :: c₁ :: c₂ :: c₃ :: rest =>
    if c₃ = padding then
      if rest = [] then decodeLast? c₀ c₁ c₂ else none
    else do
      let v₀ ← value? c₀
      let v₁ ← value? c₁
      let v₂ ← value? c₂
      let v₃ ← value? c₃
      return UInt8.ofNat (v₀ * 4 + v₁ / 16) :: UInt8.ofNat (v₁ % 16 * 16 + v₂ / 4) ::
        UInt8.ofNat (v₂ % 4 * 64 + v₃) :: (← decodeChars? rest)
  | _ => none

end EllipticSignatures.Base64
