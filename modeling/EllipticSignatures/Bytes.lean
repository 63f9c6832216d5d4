import EllipticSignatures.Radix

/-!
# Byte strings

Byte strings are lists of bytes. This module reads and writes natural numbers as base-256 digits
in either order, and defines byte strings of a fixed length.
-/

namespace EllipticSignatures

/-- A byte string. -/
abbrev Bytes := List UInt8

namespace Bytes

/-- The natural number whose big-endian digits are the bytes; no bytes are zero. -/
def toNat (bytes : Bytes) : Nat :=
  bytes.foldl (fun acc b => acc * 256 + b.toNat) 0

/-- The `width` low bytes of `n`, least significant first. -/
def littleEndian (width n : Nat) : Bytes := (Radix.low 256 width n).map UInt8.ofNat

/-- The `width` low bytes of `n`, most significant first. -/
def bigEndian (width n : Nat) : Bytes := (littleEndian width n).reverse

/-- The natural number whose little-endian digits are the bytes. -/
def ofLittleEndian (bytes : Bytes) : Nat := Radix.value 256 (bytes.map UInt8.toNat)

/-- The number of bytes that a written number takes; zero takes one. -/
def width (n : Nat) : Nat := max 1 (byteLength n)

/-- The shortest big-endian form of `n`; zero is a single zero byte. -/
def ofNat (n : Nat) : Bytes := bigEndian (width n) n

@[simp]
theorem length_littleEndian (width n : Nat) : (littleEndian width n).length = width := by
  simp [littleEndian]

@[simp]
theorem length_bigEndian (width n : Nat) : (bigEndian width n).length = width := by
  simp [bigEndian]

end Bytes

/-- A byte string of length `n`. -/
structure Block (n : Nat) where
  /-- The bytes. -/
  bytes : Bytes
  /-- There are `n` of them. -/
  length_eq : bytes.length = n
  deriving DecidableEq

namespace Block

variable {n : Nat}

/-- The block with the given bytes, if there are `n`. -/
def ofBytes? (n : Nat) (bytes : Bytes) : Option (Block n) :=
  if h : bytes.length = n then some ⟨bytes, h⟩ else none

/-- The block of the `n` low bytes of a number, most significant first. -/
def ofNat (n value : Nat) : Block n := ⟨Bytes.bigEndian n value, Bytes.length_bigEndian n value⟩

/-- The natural number whose big-endian digits are the bytes. -/
def toNat (block : Block n) : Nat := block.bytes.toNat

@[simp]
theorem ofBytes?_bytes (block : Block n) : ofBytes? n block.bytes = some block := by
  simp [ofBytes?, block.length_eq]

/-- A block is read exactly from its own bytes. -/
theorem ofBytes?_eq_some_iff {bytes : Bytes} {block : Block n} :
    ofBytes? n bytes = some block ↔ block.bytes = bytes := by
  constructor
  · unfold ofBytes?
    split
    · rintro ⟨⟩; rfl
    · simp
  · rintro rfl; simp

end Block

end EllipticSignatures
