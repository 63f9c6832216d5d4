import EllipticSignatures.Bytes

/-!
# RIPEMD-160

Two lines of eighty steps run over the same sixteen words of a block, in different orders and with
different rotations, and are combined with the state at the end of the block.
-/

namespace EllipticSignatures.Ripemd160

/-- The five words of state. -/
structure State where
  /-- The first word. -/
  a : UInt32
  /-- The second word. -/
  b : UInt32
  /-- The third word. -/
  c : UInt32
  /-- The fourth word. -/
  d : UInt32
  /-- The fifth word. -/
  e : UInt32
  deriving DecidableEq, Repr

/-- The state before the first block. -/
def initial : State := ⟨0x67452301, 0xefcdab89, 0x98badcfe, 0x10325476, 0xc3d2e1f0⟩

/-- The order of words in the left line. -/
def leftOrder : List Nat :=
  [0, 1, 2, 3, 4, 5, 6, 7, 8, 9, 10, 11, 12, 13, 14, 15,
    7, 4, 13, 1, 10, 6, 15, 3, 12, 0, 9, 5, 2, 14, 11, 8,
    3, 10, 14, 4, 9, 15, 8, 1, 2, 7, 0, 6, 13, 11, 5, 12,
    1, 9, 11, 10, 0, 8, 12, 4, 13, 3, 7, 15, 14, 5, 6, 2,
    4, 0, 5, 9, 7, 12, 2, 10, 14, 1, 3, 8, 11, 6, 15, 13]

/-- The order of words in the right line. -/
def rightOrder : List Nat :=
  [5, 14, 7, 0, 9, 2, 11, 4, 13, 6, 15, 8, 1, 10, 3, 12,
    6, 11, 3, 7, 0, 13, 5, 10, 14, 15, 8, 12, 4, 9, 1, 2,
    15, 5, 1, 3, 7, 14, 6, 9, 11, 8, 12, 2, 10, 0, 4, 13,
    8, 6, 4, 1, 3, 11, 15, 0, 5, 12, 2, 13, 9, 7, 10, 14,
    12, 15, 10, 4, 1, 5, 8, 7, 6, 2, 13, 14, 0, 3, 9, 11]

/-- The rotations of the left line. -/
def leftRotations : List UInt32 :=
  [11, 14, 15, 12, 5, 8, 7, 9, 11, 13, 14, 15, 6, 7, 9, 8,
    7, 6, 8, 13, 11, 9, 7, 15, 7, 12, 15, 9, 11, 7, 13, 12,
    11, 13, 6, 7, 14, 9, 13, 15, 14, 8, 13, 6, 5, 12, 7, 5,
    11, 12, 14, 15, 14, 15, 9, 8, 9, 14, 5, 6, 8, 6, 5, 12,
    9, 15, 5, 11, 6, 8, 13, 12, 5, 12, 13, 14, 11, 8, 5, 6]

/-- The rotations of the right line. -/
def rightRotations : List UInt32 :=
  [8, 9, 9, 11, 13, 15, 15, 5, 7, 7, 8, 11, 14, 14, 12, 6,
    9, 13, 15, 7, 12, 8, 9, 11, 7, 7, 12, 7, 6, 15, 13, 11,
    9, 7, 15, 11, 8, 6, 6, 14, 12, 13, 5, 14, 13, 13, 7, 5,
    15, 5, 8, 11, 14, 14, 6, 14, 6, 9, 12, 9, 12, 5, 15, 8,
    8, 5, 12, 9, 12, 5, 14, 6, 8, 13, 6, 5, 15, 13, 11, 11]

/-- The constants of the five rounds of the left line. -/
def leftConstants : List UInt32 := [0x00000000, 0x5a827999, 0x6ed9eba1, 0x8f1bbcdc, 0xa953fd4e]

/-- The constants of the five rounds of the right line. -/
def rightConstants : List UInt32 := [0x50a28be6, 0x5c4dd124, 0x6d703ef3, 0x7a6d76e9, 0x00000000]

/-- The word rotated to the left by less than 32 places. -/
def rotateLeft (x places : UInt32) : UInt32 := (x <<< places) ||| (x >>> (32 - places))

/-- The boolean function of a round, numbered from zero. -/
def mix (round : Nat) (x y z : UInt32) : UInt32 :=
  match round with
  | 0 => x ^^^ y ^^^ z
  | 1 => (x &&& y) ||| (~~~x &&& z)
  | 2 => (x ||| ~~~y) ^^^ z
  | 3 => (x &&& z) ||| (y &&& ~~~z)
  | _ => x ^^^ (y ||| ~~~z)

/-- A step of a line: its boolean function, word, constant and rotation. -/
structure Step where
  /-- The number of the boolean function. -/
  function : Nat
  /-- The number of the word. -/
  word : Nat
  /-- The constant. -/
  constant : UInt32
  /-- The rotation. -/
  rotation : UInt32
  deriving DecidableEq, Repr

/-- The steps of a line; sixteen steps form a round. -/
def line (functions : List Nat) (constants : List UInt32) (order : List Nat)
    (rotations : List UInt32) : List Step :=
  (order.zip rotations).zipIdx.map fun ((word, rotation), i) =>
    ⟨functions.getD (i / 16) 0, word, constants.getD (i / 16) 0, rotation⟩

/-- The steps of the left line. -/
def leftLine : List Step := line [0, 1, 2, 3, 4] leftConstants leftOrder leftRotations

/-- The steps of the right line. -/
def rightLine : List Step := line [4, 3, 2, 1, 0] rightConstants rightOrder rightRotations

/-- The state after one step on the words of a block. -/
def run (block : List UInt32) (s : State) (step : Step) : State :=
  let sum := s.a + mix step.function s.b s.c s.d + block.getD step.word 0 + step.constant
  ⟨s.e, rotateLeft sum step.rotation + s.e, s.b, rotateLeft s.c 10, s.d⟩

/-- The state after a block of sixteen words. -/
def compress (s : State) (block : List UInt32) : State :=
  let l := leftLine.foldl (run block) s
  let r := rightLine.foldl (run block) s
  ⟨s.b + l.c + r.d, s.c + l.d + r.e, s.d + l.e + r.a, s.e + l.a + r.b, s.a + l.b + r.c⟩

/-- The state after the given number of blocks. -/
def compressAll : (blocks : Nat) → State → List UInt32 → State
  | 0, s, _ => s
  | blocks + 1, s, ws => compressAll blocks (compress s (ws.take 16)) (ws.drop 16)

/-- The words of a byte string, four bytes each and least significant first. -/
def words : Bytes → List UInt32
  | b₀ :: b₁ :: b₂ :: b₃ :: rest =>
    (b₀.toUInt32 ||| (b₁.toUInt32 <<< 8) ||| (b₂.toUInt32 <<< 16) ||| (b₃.toUInt32 <<< 24))
      :: words rest
  | _ => []

/-- The message, a one bit, zero bits up to the last eight bytes of a block, and the bit length. -/
def pad (message : Bytes) : Bytes :=
  let zeros := (119 - message.length % 64) % 64
  message ++ 0x80 :: (List.replicate zeros 0 ++ Bytes.littleEndian 8 (8 * message.length))

/-- The bytes of the state, least significant first in each word. -/
def output (s : State) : Block 20 where
  bytes := [s.a, s.b, s.c, s.d, s.e].flatMap fun w => Bytes.littleEndian 4 w.toNat
  length_eq := by simp

/-- The digest of a byte string. -/
def digest (message : Bytes) : Block 20 :=
  let padded := pad message
  output (compressAll (padded.length / 64) initial (words padded))

end EllipticSignatures.Ripemd160
