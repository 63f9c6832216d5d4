import EllipticSignatures.Hash.Digests

/-!
# Base 58

A byte string is written as the base-58 digits of its big-endian number, after one zero digit for
each leading zero byte. The alphabet leaves out characters that are easily taken for one another.
`Base58Check` writes a payload followed by the first four bytes of its digest.
-/

namespace EllipticSignatures

namespace Base58

/-- The digits in order of value. -/
def alphabet : List Char :=
  ['1', '2', '3', '4', '5', '6', '7', '8', '9', 'A', 'B', 'C', 'D', 'E', 'F', 'G',
    'H', 'J', 'K', 'L', 'M', 'N', 'P', 'Q', 'R', 'S', 'T', 'U', 'V', 'W', 'X', 'Y',
    'Z', 'a', 'b', 'c', 'd', 'e', 'f', 'g', 'h', 'i', 'j', 'k', 'm', 'n', 'o', 'p',
    'q', 'r', 's', 't', 'u', 'v', 'w', 'x', 'y', 'z']

/-- The character of a digit. -/
def digit (value : Nat) : Char := alphabet.getD value '1'

/-- The value of a character. -/
def value? (c : Char) : Option Nat := alphabet.idxOf? c

/-- The characters that write a byte string. -/
def encodeChars (bytes : Bytes) : List Char :=
  let zeros := (bytes.takeWhile (· == 0)).length
  List.replicate zeros (digit 0) ++ (Radix.digits 58 bytes.toNat).map digit

/-- The byte string that the characters write; refuses characters outside the alphabet. -/
def decodeChars? (chars : List Char) : Option Bytes := do
  let digits ← chars.mapM value?
  let zeros := (digits.takeWhile (· == 0)).length
  let number := Radix.ofDigits 58 digits
  return List.replicate zeros 0 ++ (Radix.digits 256 number).map UInt8.ofNat

end Base58

namespace Base58Check

/-- The number of bytes of a checksum. -/
def checksumBytes : Nat := 4

/-- The checksum of a payload. -/
def checksum [Digests] (payload : Bytes) : Bytes :=
  (Digests.double payload).bytes.take checksumBytes

/-- The text that writes a payload. -/
def encode [Digests] (payload : Bytes) : String :=
  String.ofList (Base58.encodeChars (payload ++ checksum payload))

/-- The payload that a text writes; refuses texts whose checksum is missing or wrong. -/
def decode? [Digests] (text : String) : Option Bytes := do
  let data ← Base58.decodeChars? text.toList
  if data.length < checksumBytes then none
  else
    let payload := data.take (data.length - checksumBytes)
    if data.drop (data.length - checksumBytes) = checksum payload then return payload else none

end Base58Check

end EllipticSignatures
