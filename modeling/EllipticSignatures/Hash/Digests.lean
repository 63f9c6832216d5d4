import EllipticSignatures.Fault
import EllipticSignatures.Hash.Ripemd160
import EllipticSignatures.Hash.Sha256

/-!
# The digests in use

Keys, addresses and signatures need more than the arithmetic of a curve: digests of messages, of
payloads and of public points, and nonces that are derived from a secret and a digest. `Digests`
names these functions. What is built on them takes them as they are, and so do the results about
it: they hold for any functions in their place.

`Digests.standard` has SHA-256, alone, twice and below RIPEMD-160. Its nonces come from a generator
of keyed digests, which is seeded with the secret and the digest and asked for 32-byte candidates
until one lies between one and the group order less one. These are meant wherever no others are
named.
-/

namespace EllipticSignatures

/-! ## Keyed digests -/

namespace Hmac

/-- The number of bytes of a block of the underlying digest. -/
def blockBytes : Nat := 64

/-- The key as one block: its digest if it is longer, filled with zeros on the right. -/
def blockKey (key : Bytes) : Bytes :=
  let short := if blockBytes < key.length then (Sha256.digest key).bytes else key
  short ++ List.replicate (blockBytes - short.length) 0

/-- The digest of a message under a key. -/
def digest (key message : Bytes) : Block 32 :=
  let padded := blockKey key
  let inner := Sha256.digest (padded.map (· ^^^ 0x36) ++ message)
  Sha256.digest (padded.map (· ^^^ 0x5c) ++ inner.bytes)

end Hmac

/-! ## Derived nonces -/

namespace DeterministicNonce

/-- The generator: a key and the last output. -/
structure Generator where
  /-- The key. -/
  key : Bytes
  /-- The last output. -/
  output : Bytes
  deriving DecidableEq, Repr

namespace Generator

/-- Mixes data into the key, after the last output and a separating byte. -/
def mix (g : Generator) (separator : UInt8) (data : Bytes) : Generator :=
  let key := (Hmac.digest g.key (g.output ++ separator :: data)).bytes
  ⟨key, (Hmac.digest key g.output).bytes⟩

/-- The generator seeded with the given data. -/
def seed (data : Bytes) : Generator :=
  let start : Generator := ⟨List.replicate 32 0, List.replicate 32 1⟩
  (start.mix 0 data).mix 1 data

/-- The next 32 bytes and the generator after them. -/
def next (g : Generator) : Bytes × Generator :=
  let output := (Hmac.digest g.key g.output).bytes
  (output, (⟨g.key, output⟩ : Generator).mix 0 [])

/-- The first candidate between one and `order` less one among the given number of candidates. -/
def search (order : Nat) : (tries : Nat) → Generator → Checked Nat
  | 0, _ => .error .endlessSearch
  | tries + 1, g =>
    let (output, g') := g.next
    let candidate := Bytes.toNat output
    if candidate ≠ 0 ∧ candidate < order then .ok candidate else search order tries g'

end Generator

/-- The number of candidates after which the search is given up. A candidate is rejected with
probability at most one half when the order has 256 bits, so the limit is out of reach. -/
def tryLimit : Nat := 65536

/-- The nonce for a secret and a digest, each written in 32 bytes. -/
def derive (secret order digest : Nat) : Checked Nat :=
  let data := Bytes.bigEndian 32 secret ++ Bytes.bigEndian 32 digest
  (Generator.seed data).search order tryLimit

end DeterministicNonce

/-! ## Digests -/

/-- The SHA-256 digest of the SHA-256 digest. -/
def doubleSha256 (message : Bytes) : Block 32 := Sha256.digest (Sha256.digest message).bytes

/-- The SHA-256 digest of several byte strings one after the other. -/
def sha256Concat (parts : List Bytes) : Block 32 := Sha256.digest parts.flatten

/-- The RIPEMD-160 digest of the SHA-256 digest. -/
def hash160 (message : Bytes) : Block 20 := Ripemd160.digest (Sha256.digest message).bytes

/-- The functions that keys, addresses and signatures take from outside the arithmetic of the
curve. -/
class Digests where
  /-- The digest of a message. -/
  single : Bytes → Block 32
  /-- The digest of a message that is signed for an address, and of a payload for its checksum. -/
  double : Bytes → Block 32
  /-- The digest of several byte strings. -/
  concat : List Bytes → Block 32
  /-- The short digest of an encoded public point. -/
  short : Bytes → Block 20
  /-- The nonce for a secret and a digest under a group order. -/
  nonce : (secret order digest : Nat) → Checked Nat

/-- SHA-256 and RIPEMD-160, and nonces from keyed digests. -/
instance Digests.standard : Digests where
  single := Sha256.digest
  double := doubleSha256
  concat := sha256Concat
  short := hash160
  nonce := DeterministicNonce.derive

end EllipticSignatures
