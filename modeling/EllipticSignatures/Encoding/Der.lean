import EllipticSignatures.Bytes

/-!
# Sequences of two integers

The distinguished encoding of a sequence of two natural numbers: each item is a tag, a length and
its contents, lengths and integers take as few bytes as they can, and nothing follows the
sequence. An integer whose highest bit is set gets a zero byte in front, since integers are signed.
-/

namespace EllipticSignatures.Der

/-- The tag of an integer. -/
def integerTag : UInt8 := 0x02

/-- The tag of a sequence. -/
def sequenceTag : UInt8 := 0x30

/-- The greatest length of an encoding. -/
def maxLength : Nat := 0x0fffffff

/-- The bytes of a length: itself below 128, else the number of its bytes and those. -/
def lengthBytes (n : Nat) : Bytes :=
  if n < 0x80 then [UInt8.ofNat n]
  else UInt8.ofNat (0x80 + byteLength n) :: Bytes.bigEndian (byteLength n) n

/-- An item: tag, length and contents. -/
def item (tag : UInt8) (contents : Bytes) : Bytes :=
  tag :: (lengthBytes contents.length ++ contents)

/-- The contents of an integer: its shortest signed big-endian form. -/
def integerContents (n : Nat) : Bytes :=
  let bytes := Bytes.ofNat n
  match bytes with
  | top :: _ => if top < 0x80 then bytes else 0 :: bytes
  | [] => bytes

/-- The encoding of a sequence of two integers, unless it is too long. -/
def encodePair? (r s : Nat) : Option Bytes :=
  let encoded := item sequenceTag
    (item integerTag (integerContents r) ++ item integerTag (integerContents s))
  if encoded.length ≤ maxLength then some encoded else none

/-- Takes a length; refuses lengths that could be written in fewer bytes. -/
def takeLength? : Bytes → Option (Nat × Bytes)
  | [] => none
  | first :: rest =>
    if first < 0x80 then some (first.toNat, rest)
    else
      let width := first.toNat - 0x80
      let n := Bytes.toNat (rest.take width)
      if 1 ≤ width ∧ width ≤ 4 ∧ width ≤ rest.length ∧ n ≤ maxLength ∧ 0x80 ≤ n ∧
          byteLength n = width then
        some (n, rest.drop width)
      else none

/-- Takes the contents of an item with the given tag. -/
def takeItem? (tag : UInt8) : Bytes → Option (Bytes × Bytes)
  | [] => none
  | first :: rest => do
    if first ≠ tag then none
    else
      let (length, rest) ← takeLength? rest
      if length ≤ rest.length then return (rest.take length, rest.drop length) else none

/-- The natural number of an integer; refuses negative numbers and needless zero bytes. -/
def integer? : Bytes → Option Nat
  | [] => none
  | [byte] => if byte < 0x80 then some byte.toNat else none
  | top :: next :: rest =>
    if top < 0x80 ∧ ¬ (top = 0 ∧ next < 0x80) then some (Bytes.toNat (top :: next :: rest))
    else none

/-- The two integers of a sequence; refuses all but their own encoding. -/
def decodePair? (bytes : Bytes) : Option (Nat × Nat) := do
  if maxLength < bytes.length then none
  else
    let (contents, after) ← takeItem? sequenceTag bytes
    let (first, contents) ← takeItem? integerTag contents
    let r ← integer? first
    let (second, contents) ← takeItem? integerTag contents
    let s ← integer? second
    if contents = [] ∧ after = [] then return (r, s) else none

end EllipticSignatures.Der
