import EllipticSignatures.Signature.Message
import EllipticSignatures.Proofs.Bytes

/-!
# The signed bytes determine the message

The bytes that are hashed for a message are the magic bytes, the written length and the message. A
written length is a byte of its own, or a marker and a word of two, four or eight bytes that holds
it (`CompactSize.Form`), so small lengths have several forms. The first byte tells where a form
ends, so the message is read off the bytes. Two messages with one digest are therefore a collision.

- `CompactSize.Form.read?_append`: a form is read back, whatever follows it;
- `CompactSize.form_encode`: `encode` writes a form of the lowest 64 bits of every length;
- `CompactSize.shortest_encode`: for lengths below 2⁶⁴ no form has fewer bytes;
- `SignedMessage.preimage_injective`: different messages have different preimages.
-/

namespace EllipticSignatures

/-! ## Written lengths -/

namespace CompactSize

/-- The number of bytes in the word that a marker announces; other first bytes announce none. -/
def wordBytes? (first : UInt8) : Option ℕ :=
  if first = 0xfd then some 2
  else if first = 0xfe then some 4
  else if first = 0xff then some 8
  else none

/-- The bytes are a form of the length. -/
inductive Form : ℕ → Bytes → Prop
  /-- A byte that is no marker is the length. -/
  | byte {first : UInt8} (h : wordBytes? first = none) : Form first.toNat [first]
  /-- After a marker, the length is a little-endian word. -/
  | word {marker : UInt8} {bytes : Bytes} (h : wordBytes? marker = some bytes.length) :
      Form (Bytes.ofLittleEndian bytes) (marker :: bytes)

/-- A form of the length that is not longer than any other. -/
structure Shortest (n : ℕ) (form : Bytes) : Prop where
  /-- It is a form. -/
  isForm : Form n form
  /-- Every form has at least as many bytes. -/
  length_le : ∀ {other : Bytes}, Form n other → form.length ≤ other.length

/-- The length whose form stands in front of the bytes, and what follows that form. -/
def read? : Bytes → Option (ℕ × Bytes)
  | [] => none
  | first :: rest =>
    match wordBytes? first with
    | none => some (first.toNat, rest)
    | some count =>
      if rest.length < count then none
      else some (Bytes.ofLittleEndian (rest.take count), rest.drop count)

variable {n : ℕ} {form : Bytes}

/-- The markers are the three greatest bytes. -/
theorem wordBytes?_eq_none_iff {first : UInt8} : wordBytes? first = none ↔ first.toNat ≤ 0xfc := by
  have hlt := first.toNat_lt
  have htwo : first = 0xfd ↔ first.toNat = 0xfd := UInt8.toNat_inj.symm
  have hfour : first = 0xfe ↔ first.toNat = 0xfe := UInt8.toNat_inj.symm
  have height : first = 0xff ↔ first.toNat = 0xff := UInt8.toNat_inj.symm
  simp only [wordBytes?, htwo, hfour, height]
  split_ifs <;> simp <;> omega

/-- A form is read back, and what follows it is left. -/
theorem Form.read?_append (h : Form n form) (rest : Bytes) :
    read? (form ++ rest) = some (n, rest) := by
  cases h with
  | byte h => simp [read?, h]
  | word h => simp [read?, h]

/-- A form of one, three, five or nine bytes holds lengths up to its own limit. -/
theorem Form.limits (h : Form n form) :
    form.length = 1 ∧ n ≤ 0xfc ∨ form.length = 3 ∧ n ≤ 0xffff ∨
      form.length = 5 ∧ n ≤ 0xffffffff ∨ form.length = 9 := by
  cases h with
  | byte h => exact .inl ⟨rfl, wordBytes?_eq_none_iff.mp h⟩
  | @word marker bytes h =>
    have hlt := Bytes.ofLittleEndian_lt bytes
    rw [List.length_cons]
    unfold wordBytes? at h
    split_ifs at h <;> simp only [Option.some.injEq] at h <;> rw [← h] at hlt <;> omega

/-- A marker with a word of as many bytes as it announces is a form of what the word can hold. -/
theorem form_word {marker : UInt8} {count : ℕ} (h : wordBytes? marker = some count) (n : ℕ) :
    Form (n % 256 ^ count) (marker :: Bytes.littleEndian count n) := by
  rw [← Bytes.ofLittleEndian_littleEndian]
  exact .word (by rw [h, Bytes.length_littleEndian])

/-- A length is written in a form of its lowest 64 bits. -/
theorem form_encode (n : ℕ) : Form (n % 2 ^ 64) (encode n) := by
  unfold encode
  split_ifs with hbyte htwo hfour
  · have hvalue : (UInt8.ofNat n).toNat = n % 2 ^ 64 := by
      rw [UInt8.toNat_ofNat']
      omega
    rw [← hvalue]
    exact .byte (wordBytes?_eq_none_iff.mpr (by omega))
  · rw [show n % 2 ^ 64 = n % 256 ^ 2 by omega]
    exact form_word rfl n
  · rw [show n % 2 ^ 64 = n % 256 ^ 4 by omega]
    exact form_word rfl n
  · rw [show n % 2 ^ 64 = n % 256 ^ 8 by norm_num]
    exact form_word rfl n

theorem length_encode (n : ℕ) : (encode n).length =
    if n ≤ 0xfc then 1 else if n ≤ 0xffff then 3 else if n ≤ 0xffffffff then 5 else 9 := by
  unfold encode
  split_ifs <;> simp

/-- What follows a written length is determined, and so are the lowest 64 bits of the length. -/
theorem read?_encode_append (n : ℕ) (rest : Bytes) :
    read? (encode n ++ rest) = some (n % 2 ^ 64, rest) :=
  (form_encode n).read?_append rest

/-- A length below 2⁶⁴ is written in its shortest form. -/
theorem shortest_encode (h : n < 2 ^ 64) : Shortest n (encode n) where
  isForm := by
    have hform := form_encode n
    rwa [Nat.mod_eq_of_lt h] at hform
  length_le hother := by
    have hlimits := hother.limits
    rw [length_encode]
    split_ifs <;> omega

/-- Lengths below 2⁶⁴ and what follows them are determined by the bytes. -/
theorem encode_append_inj {a b : ℕ} {u v : Bytes} (ha : a < 2 ^ 64) (hb : b < 2 ^ 64)
    (h : encode a ++ u = encode b ++ v) : a = b ∧ u = v := by
  have hread : some (a % 2 ^ 64, u) = some (b % 2 ^ 64, v) := by
    rw [← read?_encode_append, ← read?_encode_append, h]
  rw [Nat.mod_eq_of_lt ha, Nat.mod_eq_of_lt hb] at hread
  simpa using hread

end CompactSize

/-! ## Preimages -/

namespace SignedMessage

/-- Different messages have different preimages, whatever their lengths. -/
theorem preimage_injective : Function.Injective preimage := by
  intro first second h
  have hrest := List.append_cancel_left h
  have hread := congrArg CompactSize.read? hrest
  rw [CompactSize.read?_encode_append, CompactSize.read?_encode_append, Option.some.injEq,
    Prod.mk.injEq] at hread
  exact hread.right

/-- Messages with one digest are equal, or their preimages collide. -/
theorem digest_eq_iff [Digests] {first second : Bytes} : digest first = digest second ↔
    first = second ∨ preimage first ≠ preimage second ∧
      Digests.double (preimage first) = Digests.double (preimage second) := by
  rw [preimage_injective.ne_iff, digest, digest]
  constructor
  · intro h
    by_cases hsame : first = second
    · exact .inl hsame
    · exact .inr ⟨hsame, h⟩
  · rintro (rfl | ⟨-, h⟩)
    · rfl
    · exact h

end SignedMessage

/-- The signed bytes determine the message. A written length and what follows it are determined by
the bytes, for all lengths below 2⁶⁴ and whatever follows. Each of these lengths is written in one,
three, five or nine bytes, in a form that no form of it is shorter than. The preimage of a message
is the magic bytes, the written length and the message. So no two messages have one preimage, and if
two messages have one digest, then their preimages are a collision of the double SHA-256. -/
theorem preimage_determines_message :
    (∀ (a b : ℕ) (u v : Bytes), a < 2 ^ 64 → b < 2 ^ 64 →
      CompactSize.encode a ++ u = CompactSize.encode b ++ v → a = b ∧ u = v) ∧
    (∀ n < 2 ^ 64, CompactSize.Shortest n (CompactSize.encode n) ∧
      (CompactSize.encode n).length ∈ [1, 3, 5, 9]) ∧
    (∀ message, SignedMessage.preimage message =
      SignedMessage.magic ++ (CompactSize.encode message.length ++ message)) ∧
    Function.Injective SignedMessage.preimage ∧
    ∀ first second : Bytes, SignedMessage.digest first = SignedMessage.digest second ↔
      first = second ∨
        SignedMessage.preimage first ≠ SignedMessage.preimage second ∧
          doubleSha256 (SignedMessage.preimage first) =
            doubleSha256 (SignedMessage.preimage second) := by
  refine ⟨fun _ _ _ _ => CompactSize.encode_append_inj, fun n hn => ?_, fun _ => rfl,
    SignedMessage.preimage_injective, fun _ _ => SignedMessage.digest_eq_iff⟩
  refine ⟨CompactSize.shortest_encode hn, ?_⟩
  rw [CompactSize.length_encode]
  split_ifs <;> simp

/-- The least length that takes five bytes, followed by one byte of a message, and the greatest
length that takes three, followed by two. -/
theorem twoPowSixteen_preimage :
    (2 ^ 16 < 2 ^ 64 ∧ CompactSize.encode (2 ^ 16) ++ [9] = [0xfe, 0, 0, 1, 0, 9] ∧
      CompactSize.Shortest (2 ^ 16) [0xfe, 0, 0, 1, 0]) ∧
    (2 ^ 16 = 0x10000 ∧ ([9] : Bytes) = [9]) ∧
    ¬CompactSize.encode (2 ^ 16 - 1) ++ [0, 9] = CompactSize.encode (2 ^ 16) ++ [9] := by
  obtain ⟨determined, shortest, -⟩ := preimage_determines_message
  have hbytes : CompactSize.encode (2 ^ 16) = [0xfe, 0, 0, 1, 0] := by decide
  refine ⟨⟨by decide, by rw [hbytes]; rfl, ?_⟩, ?_, ?_⟩
  · rw [← hbytes]
    exact (shortest (2 ^ 16) (by decide)).left
  · exact determined (2 ^ 16) 0x10000 [9] [9] (by decide) (by decide) rfl
  · intro h
    have hlength := (determined (2 ^ 16 - 1) (2 ^ 16) [0, 9] [9] (by decide) (by decide) h).left
    omega

end EllipticSignatures
