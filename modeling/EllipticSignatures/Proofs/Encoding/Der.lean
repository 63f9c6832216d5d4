import EllipticSignatures.Encoding.Der
import EllipticSignatures.Signature.Ecdsa
import EllipticSignatures.Proofs.Bytes

/-!
# Distinguished encodings

The rules of the encoding are stated as relations between a value and its bytes.

* `Der.IsLength`: the length of an item;
* `Der.IsItem`: tag, length and contents;
* `Der.IsInteger`: the contents of an integer;
* `Der.Encodes`: a sequence of two integers.

Writing produces what the rules ask for and reading takes it off the front of the bytes, so for
bytes of admissible length both agree with the rules, and with each other
(`EcdsaSignature.ofDer_toDer_strict`).
-/

namespace EllipticSignatures

namespace Der

theorem lt_sign_iff {byte : UInt8} : byte < 0x80 ↔ byte.toNat < 0x80 := UInt8.lt_iff_toNat_lt

/-! ## Lengths -/

/-- The bytes write a length: one byte below 128, or the number of the other bytes plus 128 and
then those, which write the length in the shortest way. -/
inductive IsLength : ℕ → Bytes → Prop
  /-- A length below 128 is written as itself. -/
  | short {byte : UInt8} (hsmall : byte < 0x80) : IsLength byte.toNat [byte]
  /-- Every other length is written after the number of its bytes. -/
  | long {count : UInt8} {digits : Bytes} (hcount : count.toNat = 0x80 + digits.length)
      (hshortest : digits.Shortest) (hlarge : 0x80 ≤ Bytes.toNat digits) :
      IsLength (Bytes.toNat digits) (count :: digits)

/-- Four bytes hold every admissible length. -/
theorem byteLength_le_four {n : ℕ} (hmax : n ≤ maxLength) : byteLength n ≤ 4 :=
  byteLength_le_iff.mpr (hmax.trans_lt (by decide))

theorem isLength_lengthBytes {n : ℕ} (hmax : n ≤ maxLength) : IsLength n (lengthBytes n) := by
  unfold lengthBytes
  by_cases hsmall : n < 0x80
  · rw [if_pos hsmall]
    have hbyte : (UInt8.ofNat n).toNat = n := by
      rw [UInt8.toNat_ofNat']
      omega
    have hshort := IsLength.short (lt_sign_iff.mpr (hbyte.symm ▸ hsmall))
    rwa [hbyte] at hshort
  · rw [if_neg hsmall]
    have hform : Bytes.bigEndian (byteLength n) n = Bytes.ofNat n := by
      rw [Bytes.ofNat, Bytes.width_of_pos (by omega)]
    -- At most four bytes follow, so their number fits beside the highest bit of the first one.
    have hfour := byteLength_le_four hmax
    have hlong := @IsLength.long (UInt8.ofNat (0x80 + byteLength n)) (Bytes.ofNat n) ?_
      (Bytes.shortest_ofNat n) (by rw [Bytes.toNat_ofNat]; omega)
    · rwa [Bytes.toNat_ofNat, ← hform] at hlong
    · rw [← hform, Bytes.length_bigEndian, UInt8.toNat_ofNat']
      omega

/-- Every length has one written form. -/
theorem IsLength.eq_lengthBytes {n : ℕ} {bytes : Bytes} (h : IsLength n bytes) :
    bytes = lengthBytes n := by
  cases h with
  | short hsmall => rw [lengthBytes, if_pos (lt_sign_iff.mp hsmall), UInt8.ofNat_toNat]
  | @long count digits hcount hshortest hlarge =>
    rw [lengthBytes, if_neg (by omega), hshortest.byteLength_toNat (by omega),
      Bytes.bigEndian_toNat, ← hcount, UInt8.ofNat_toNat]

/-- Reading takes a written length of admissible size off the front of the bytes, and nothing
else. -/
theorem takeLength?_eq_some_iff {n : ℕ} {bytes rest : Bytes} :
    takeLength? bytes = some (n, rest) ↔
      n ≤ maxLength ∧ ∃ length, IsLength n length ∧ bytes = length ++ rest := by
  constructor
  · intro h
    cases bytes with
    | nil => simp [takeLength?] at h
    | cons first tail =>
      by_cases hsmall : first < 0x80
      · obtain ⟨rfl, rfl⟩ : first.toNat = n ∧ tail = rest := by
          simpa [takeLength?, hsmall] using h
        have hlt := lt_sign_iff.mp hsmall
        exact ⟨by rw [maxLength]; omega, [first], .short hsmall, rfl⟩
      · simp only [takeLength?, hsmall, if_false] at h
        obtain ⟨⟨hone, -, hwidth, hmax, hlarge, hdigits⟩, hsome⟩ :=
          Option.ite_none_right_eq_some.mp h
        obtain ⟨rfl, rfl⟩ := Prod.mk.inj (Option.some.inj hsome)
        have hlength : (tail.take (first.toNat - 0x80)).length = first.toNat - 0x80 :=
          List.length_take_of_le hwidth
        -- The length that is read takes as many bytes as are counted, so it is in shortest form.
        refine ⟨hmax, _, @IsLength.long first _ ?_ ?_ hlarge, ?_⟩
        · rw [hlength]
          omega
        · rw [Bytes.shortest_iff, Bytes.width_of_pos (by omega), hdigits, hlength]
        · rw [List.cons_append, List.take_append_drop]
  · rintro ⟨hmax, length, hlength, rfl⟩
    cases hlength with
    | short hsmall => simp [takeLength?, hsmall]
    | @long count digits hcount hshortest hlarge =>
      have hwidth := hshortest.byteLength_toNat (by omega)
      have hfour : digits.length ≤ 4 := hwidth ▸ byteLength_le_four hmax
      have hnonempty : 1 ≤ digits.length := by
        rw [← hwidth, ← Bytes.width_of_pos (by omega)]
        exact (Bytes.width_le_iff.mp le_rfl).left
      have hcount' : count.toNat - 0x80 = digits.length := by omega
      rw [List.cons_append, takeLength?, if_neg (by rw [lt_sign_iff]; omega)]
      simp [hcount', hnonempty, hfour, hmax, hlarge, hwidth]

/-! ## Items -/

/-- The bytes are the tag, the length of the contents and the contents. -/
def IsItem (tag : UInt8) (contents bytes : Bytes) : Prop :=
  ∃ length, IsLength contents.length length ∧ bytes = tag :: (length ++ contents)

theorem isItem_item {tag : UInt8} {contents : Bytes} (hmax : contents.length ≤ maxLength) :
    IsItem tag contents (item tag contents) :=
  ⟨_, isLength_lengthBytes hmax, rfl⟩

theorem IsItem.eq_item {tag : UInt8} {contents bytes : Bytes} (h : IsItem tag contents bytes) :
    bytes = item tag contents := by
  obtain ⟨length, hlength, rfl⟩ := h
  rw [item, hlength.eq_lengthBytes]

theorem length_item (tag : UInt8) (contents : Bytes) :
    (item tag contents).length = 1 + (lengthBytes contents.length).length + contents.length := by
  rw [item, List.length_cons, List.length_append]
  omega

theorem IsItem.length_contents_le {tag : UInt8} {contents bytes : Bytes}
    (h : IsItem tag contents bytes) : contents.length ≤ bytes.length := by
  rw [h.eq_item, length_item]
  omega

/-- Reading takes an item with the tag off the front of the bytes, and nothing else. -/
theorem takeItem?_eq_some_iff {tag : UInt8} {bytes contents rest : Bytes} :
    takeItem? tag bytes = some (contents, rest) ↔
      contents.length ≤ maxLength ∧ ∃ encoded, IsItem tag contents encoded ∧
        bytes = encoded ++ rest := by
  constructor
  · intro h
    cases bytes with
    | nil => simp [takeItem?] at h
    | cons first tail =>
      by_cases htag : first = tag
      swap
      · simp [takeItem?, htag] at h
      subst htag
      simp only [takeItem?, ne_eq, not_true_eq_false, if_false, Option.bind_eq_bind,
        Option.bind_eq_some_iff, Prod.exists] at h
      obtain ⟨n, after, hlength, h⟩ := h
      obtain ⟨hn, hsome⟩ := Option.ite_none_right_eq_some.mp h
      obtain ⟨rfl, rfl⟩ := Prod.mk.inj (Option.some.inj hsome)
      -- The length says how much of what follows it is contents.
      obtain ⟨hmax, length, hlength, rfl⟩ := takeLength?_eq_some_iff.mp hlength
      have htake : (after.take n).length = n := List.length_take_of_le hn
      refine ⟨by rwa [htake], first :: (length ++ after.take n), ⟨length, by rwa [htake], rfl⟩, ?_⟩
      rw [List.cons_append, List.append_assoc, List.take_append_drop]
  · rintro ⟨hmax, encoded, ⟨length, hlength, rfl⟩, rfl⟩
    have htake : takeLength? (length ++ (contents ++ rest)) =
        some (contents.length, contents ++ rest) :=
      takeLength?_eq_some_iff.mpr ⟨hmax, length, hlength, rfl⟩
    simp [takeItem?, htake]

/-! ## Integers -/

/-- The bytes are the contents of an integer: the shortest form of the number that leaves the sign
bit clear. -/
structure IsInteger (n : ℕ) (contents : Bytes) : Prop where
  /-- The bytes write the number. -/
  number : Bytes.toNat contents = n
  /-- There is a first byte, and its highest bit is clear. -/
  sign : ∃ top rest, contents = top :: rest ∧ top < 0x80
  /-- A zero byte in front of others is there to clear the sign bit. -/
  minimal : ∀ next rest, contents = 0 :: next :: rest → ¬next < 0x80

/-- Reading accepts the contents of an integer and nothing else. -/
theorem integer?_eq_some_iff {n : ℕ} {contents : Bytes} :
    integer? contents = some n ↔ IsInteger n contents := by
  constructor
  · intro h
    match contents with
    | [] => simp [integer?] at h
    | [byte] =>
      -- A single byte cannot be a zero in front of others.
      obtain ⟨hsign, hsome⟩ := Option.ite_none_right_eq_some.mp h
      refine ⟨?_, ⟨byte, [], rfl, hsign⟩, by simp⟩
      rw [← Option.some.inj hsome, Bytes.toNat_cons]
      simp [Bytes.toNat]
    | top :: next :: rest =>
      obtain ⟨⟨hsign, hminimal⟩, hsome⟩ := Option.ite_none_right_eq_some.mp h
      refine ⟨Option.some.inj hsome, ⟨top, _, rfl, hsign⟩, ?_⟩
      rintro _ _ ⟨⟩ hnext
      exact hminimal ⟨rfl, hnext⟩
  · rintro ⟨rfl, ⟨top, rest, rfl, hsign⟩, hminimal⟩
    cases rest with
    | nil => simp [integer?, hsign, Bytes.toNat]
    | cons next rest =>
      apply if_pos
      refine ⟨hsign, ?_⟩
      rintro ⟨rfl, hnext⟩
      exact hminimal next rest rfl hnext

theorem integerContents_of_ofNat {n : ℕ} {top : UInt8} {rest : Bytes}
    (h : Bytes.ofNat n = top :: rest) :
    integerContents n = if top < 0x80 then top :: rest else 0 :: top :: rest := by
  rw [integerContents, h]

theorem isInteger_integerContents (n : ℕ) : IsInteger n (integerContents n) := by
  obtain ⟨hshortest, hnumber⟩ := Bytes.ofNat_eq_iff.mp (Eq.refl (Bytes.ofNat n))
  cases hbytes : Bytes.ofNat n with
  | nil =>
    rw [hbytes] at hshortest
    exact absurd hshortest id
  | cons top rest =>
    rw [hbytes] at hshortest hnumber
    rw [integerContents_of_ofNat hbytes]
    by_cases hsign : top < 0x80
    · rw [if_pos hsign]
      refine ⟨hnumber, ⟨top, rest, rfl, hsign⟩, ?_⟩
      rintro next tail ⟨⟩
      exact absurd (hshortest rfl) (List.cons_ne_nil next tail)
    · -- The sign bit is set, so a zero byte goes in front.
      rw [if_neg hsign]
      refine ⟨by rw [Bytes.toNat_cons_zero, hnumber], ⟨0, _, rfl, by decide⟩, ?_⟩
      rintro next tail ⟨⟩
      exact hsign

/-- Every number has one form as the contents of an integer. -/
theorem IsInteger.eq_integerContents {n : ℕ} {contents : Bytes} (h : IsInteger n contents) :
    contents = integerContents n := by
  obtain ⟨rfl, ⟨top, rest, rfl, hsign⟩, hminimal⟩ := h
  by_cases hshortest : Bytes.Shortest (top :: rest)
  · rw [integerContents_of_ofNat (Bytes.ofNat_eq_iff.mpr ⟨hshortest, rfl⟩), if_pos hsign]
  · -- The first byte is a zero in front of a byte whose highest bit is set.
    obtain ⟨rfl, hrest⟩ : top = 0 ∧ rest ≠ [] := by simpa [Bytes.Shortest] using hshortest
    obtain ⟨next, tail, rfl⟩ := List.exists_cons_of_ne_nil hrest
    have hnext := hminimal next tail rfl
    have hform : Bytes.ofNat (Bytes.toNat (0 :: next :: tail)) = next :: tail := by
      rw [Bytes.toNat_cons_zero]
      refine Bytes.ofNat_eq_iff.mpr ⟨?_, rfl⟩
      rintro rfl
      exact absurd (by decide) hnext
    rw [integerContents_of_ofNat hform, if_neg hnext]

/-! ## Sequences of two integers -/

/-- The bytes are a sequence of two integers that nothing follows. -/
def Encodes (r s : ℕ) (bytes : Bytes) : Prop :=
  ∃ first second encodedFirst encodedSecond, IsInteger r first ∧ IsInteger s second ∧
    IsItem integerTag first encodedFirst ∧ IsItem integerTag second encodedSecond ∧
    IsItem sequenceTag (encodedFirst ++ encodedSecond) bytes

/-- Reading accepts the encoding of a sequence of two integers, of admissible length, and nothing
else. -/
theorem decodePair?_eq_some_iff {r s : ℕ} {bytes : Bytes} :
    decodePair? bytes = some (r, s) ↔ Encodes r s bytes ∧ bytes.length ≤ maxLength := by
  constructor
  · intro h
    rw [decodePair?] at h
    by_cases hlong : maxLength < bytes.length
    · simp [hlong] at h
    simp only [hlong, if_false, Option.bind_eq_bind, Option.bind_eq_some_iff, Prod.exists] at h
    obtain ⟨contents, after, hsequence, first, remaining, hfirst, _, hr, second, last, hsecond, _,
      hs, h⟩ := h
    obtain ⟨⟨rfl, rfl⟩, hpair⟩ := Option.ite_none_right_eq_some.mp h
    obtain ⟨rfl, rfl⟩ := Prod.mk.inj (Option.some.inj hpair)
    obtain ⟨-, encoded, hitem, rfl⟩ := takeItem?_eq_some_iff.mp hsequence
    obtain ⟨-, encodedFirst, hitemFirst, rfl⟩ := takeItem?_eq_some_iff.mp hfirst
    obtain ⟨-, encodedSecond, hitemSecond, rfl⟩ := takeItem?_eq_some_iff.mp hsecond
    rw [List.append_nil] at hitem hlong ⊢
    exact ⟨⟨first, second, encodedFirst, encodedSecond, integer?_eq_some_iff.mp hr,
      integer?_eq_some_iff.mp hs, hitemFirst, hitemSecond, hitem⟩, not_lt.mp hlong⟩
  · rintro ⟨⟨first, second, encodedFirst, encodedSecond, hr, hs, hfirst, hsecond, hsequence⟩, hmax⟩
    -- No part is longer than the whole.
    have hinner := hsequence.length_contents_le
    have hlengthFirst := hfirst.length_contents_le
    have hlengthSecond := hsecond.length_contents_le
    rw [List.length_append] at hinner
    have htake : takeItem? sequenceTag bytes = some (encodedFirst ++ encodedSecond, []) :=
      takeItem?_eq_some_iff.mpr ⟨by rw [List.length_append]; omega, bytes, hsequence,
        (List.append_nil _).symm⟩
    have htakeFirst : takeItem? integerTag (encodedFirst ++ encodedSecond) =
        some (first, encodedSecond) :=
      takeItem?_eq_some_iff.mpr ⟨by omega, encodedFirst, hfirst, rfl⟩
    have htakeSecond : takeItem? integerTag encodedSecond = some (second, []) :=
      takeItem?_eq_some_iff.mpr ⟨by omega, encodedSecond, hsecond, (List.append_nil _).symm⟩
    simp [decodePair?, not_lt.mpr hmax, htake, htakeFirst, htakeSecond,
      integer?_eq_some_iff.mpr hr, integer?_eq_some_iff.mpr hs]

/-- Nested items are written unless they are too long. -/
theorem encodePair?_eq_some_iff_item {r s : ℕ} {bytes : Bytes} :
    encodePair? r s = some bytes ↔ bytes = item sequenceTag (item integerTag (integerContents r) ++
      item integerTag (integerContents s)) ∧ bytes.length ≤ maxLength := by
  rw [encodePair?, Option.ite_none_right_eq_some, Option.some.injEq]
  constructor
  · rintro ⟨hmax, rfl⟩
    exact ⟨rfl, hmax⟩
  · rintro ⟨rfl, hmax⟩
    exact ⟨hmax, rfl⟩

/-- Writing produces the encoding, if it has an admissible length. -/
theorem encodePair?_eq_some_iff {r s : ℕ} {bytes : Bytes} :
    encodePair? r s = some bytes ↔ Encodes r s bytes ∧ bytes.length ≤ maxLength := by
  rw [encodePair?_eq_some_iff_item]
  constructor
  · rintro ⟨rfl, hmax⟩
    refine ⟨⟨integerContents r, integerContents s, item integerTag (integerContents r),
      item integerTag (integerContents s), isInteger_integerContents r, isInteger_integerContents s,
      isItem_item ?_, isItem_item ?_, isItem_item ?_⟩, hmax⟩
    all_goals
      simp only [length_item, List.length_append] at hmax ⊢
      omega
  · rintro ⟨⟨first, second, encodedFirst, encodedSecond, hr, hs, hfirst, hsecond, hsequence⟩, hmax⟩
    refine ⟨?_, hmax⟩
    rw [hsequence.eq_item, hfirst.eq_item, hsecond.eq_item, hr.eq_integerContents,
      hs.eq_integerContents]

/-- What follows an item stays behind it. -/
theorem takeItem?_append {tag : UInt8} {bytes contents rest : Bytes}
    (h : takeItem? tag bytes = some (contents, rest)) (more : Bytes) :
    takeItem? tag (bytes ++ more) = some (contents, rest ++ more) := by
  obtain ⟨hmax, encoded, hitem, rfl⟩ := takeItem?_eq_some_iff.mp h
  exact takeItem?_eq_some_iff.mpr ⟨hmax, encoded, hitem, List.append_assoc _ _ _⟩

/-- An encoding is one item. -/
theorem exists_takeItem?_of_decodePair? {pair : ℕ × ℕ} {bytes : Bytes}
    (h : decodePair? bytes = some pair) :
    ∃ contents, takeItem? sequenceTag bytes = some (contents, []) := by
  obtain ⟨⟨_, _, _, _, -, -, -, -, hsequence⟩, hmax⟩ := decodePair?_eq_some_iff.mp h
  exact ⟨_, takeItem?_eq_some_iff.mpr
    ⟨hsequence.length_contents_le.trans hmax, bytes, hsequence, (List.append_nil _).symm⟩⟩

/-- No encoding is the beginning of another one. -/
theorem eq_nil_of_decodePair?_append {pair pair' : ℕ × ℕ} {bytes rest : Bytes}
    (h : decodePair? bytes = some pair) (h' : decodePair? (bytes ++ rest) = some pair') :
    rest = [] := by
  obtain ⟨contents, htake⟩ := exists_takeItem?_of_decodePair? h
  obtain ⟨contents', htake'⟩ := exists_takeItem?_of_decodePair? h'
  -- The item in front ends where the shorter encoding ends, so the rest is left over.
  rw [takeItem?_append htake, List.nil_append] at htake'
  exact (Prod.mk.inj (Option.some.inj htake')).right

/-! ## Sizes -/

theorem length_lengthBytes_le {n : ℕ} (hmax : n ≤ maxLength) : (lengthBytes n).length ≤ 5 := by
  unfold lengthBytes
  by_cases hsmall : n < 0x80
  · simp [hsmall]
  · have hfour := byteLength_le_four hmax
    rw [if_neg hsmall, List.length_cons, Bytes.length_bigEndian]
    omega

theorem length_integerContents_le (n : ℕ) : (integerContents n).length ≤ byteLength n + 2 := by
  have hlength := Bytes.length_ofNat n
  cases hbytes : Bytes.ofNat n with
  | nil => simp [integerContents, hbytes]
  | cons top rest =>
    rw [hbytes, Bytes.width] at hlength
    rw [integerContents_of_ofNat hbytes]
    by_cases hsign : top < 0x80
    · rw [if_pos hsign]
      omega
    · rw [if_neg hsign, List.length_cons]
      omega

/-- Numbers that leave room for tags, lengths and signs have an encoding. -/
theorem exists_encodePair? {r s : ℕ} (h : byteLength r + byteLength s + 22 ≤ maxLength) :
    ∃ bytes, encodePair? r s = some bytes := by
  have hr := length_integerContents_le r
  have hs := length_integerContents_le s
  have hlengthFirst := length_lengthBytes_le (n := (integerContents r).length) (by omega)
  have hlengthSecond := length_lengthBytes_le (n := (integerContents s).length) (by omega)
  have hinner : (item integerTag (integerContents r) ++
      item integerTag (integerContents s)).length ≤ byteLength r + byteLength s + 16 := by
    rw [List.length_append, length_item, length_item]
    omega
  -- The sequence adds its own tag and length to those of the two integers.
  have hlength := length_lengthBytes_le (hinner.trans (by omega))
  refine ⟨_, encodePair?_eq_some_iff_item.mpr ⟨rfl, ?_⟩⟩
  rw [length_item]
  omega

end Der

namespace EcdsaSignature

theorem toDer_eq_ok_iff {sig : EcdsaSignature} {bytes : Bytes} :
    sig.toDer = .ok bytes ↔ Der.encodePair? sig.r sig.s = some bytes := by
  rw [toDer]
  cases Der.encodePair? sig.r sig.s <;> simp

theorem ofDer_eq_ok_iff {sig : EcdsaSignature} {bytes : Bytes} :
    ofDer bytes = .ok sig ↔ Der.decodePair? bytes = some (sig.r, sig.s) := by
  obtain ⟨r, s⟩ := sig
  rw [ofDer]
  cases Der.decodePair? bytes <;> simp [Prod.ext_iff]

theorem ofDer_eq_error_iff {bytes : Bytes} :
    ofDer bytes = .error .invalidSignatureEncoding ↔ ∀ sig, ofDer bytes ≠ .ok sig := by
  rw [ofDer]
  cases Der.decodePair? bytes <;> simp

/-- The encoding of signatures is strict and one to one. A signature is read exactly from the bytes
that write it, which are the ones that the rules of the encoding ask for, and from no others. In
particular nothing is read from an encoding with bytes behind it or without its last bytes. Every
signature whose numbers leave room for tags, lengths and signs has an encoding. -/
theorem ofDer_toDer_strict :
    (∀ (sig : EcdsaSignature) (bytes : Bytes), sig.toDer = .ok bytes ↔ ofDer bytes = .ok sig) ∧
    (∀ (sig : EcdsaSignature) (bytes : Bytes), ofDer bytes = .ok sig ↔
      Der.Encodes sig.r sig.s bytes ∧ bytes.length ≤ Der.maxLength) ∧
    (∀ (sig : EcdsaSignature) (first second : Bytes), ofDer first = .ok sig →
      ofDer second = .ok sig → first = second) ∧
    (∀ (sig : EcdsaSignature) (bytes rest : Bytes), rest ≠ [] →
      (ofDer bytes = .ok sig → ofDer (bytes ++ rest) = .error .invalidSignatureEncoding) ∧
      (ofDer (bytes ++ rest) = .ok sig → ofDer bytes = .error .invalidSignatureEncoding)) ∧
    ∀ sig : EcdsaSignature, byteLength sig.r + byteLength sig.s + 22 ≤ Der.maxLength →
      ∃ bytes, sig.toDer = .ok bytes := by
  -- Writer and reader meet in the rules: each accepts exactly the encodings by them.
  have hbijective (sig : EcdsaSignature) (bytes : Bytes) :
      sig.toDer = .ok bytes ↔ ofDer bytes = .ok sig := by
    rw [toDer_eq_ok_iff, ofDer_eq_ok_iff, Der.encodePair?_eq_some_iff, Der.decodePair?_eq_some_iff]
  refine ⟨hbijective, ?_, ?_, ?_, ?_⟩
  · intro sig bytes
    rw [ofDer_eq_ok_iff, Der.decodePair?_eq_some_iff]
  · intro sig first second hfirst hsecond
    rw [← hbijective] at hfirst hsecond
    exact Except.ok.inj (hfirst.symm.trans hsecond)
  · intro sig bytes rest hrest
    have hbehind {sig sig' : EcdsaSignature} (h : ofDer bytes = .ok sig)
        (h' : ofDer (bytes ++ rest) = .ok sig') : False :=
      hrest (Der.eq_nil_of_decodePair?_append (ofDer_eq_ok_iff.mp h) (ofDer_eq_ok_iff.mp h'))
    exact ⟨fun h => ofDer_eq_error_iff.mpr fun _ h' => hbehind h h',
      fun h' => ofDer_eq_error_iff.mpr fun _ h => hbehind h h'⟩
  · intro sig hfits
    obtain ⟨bytes, h⟩ := Der.exists_encodePair? hfits
    exact ⟨bytes, toDer_eq_ok_iff.mpr h⟩

/-- The pair of one and 128, whose second number needs a zero byte for its sign: its encoding, the
encoding with a byte more, and the encoding with two bytes less. -/
theorem one_twoPowSeven_der :
    let bytes : Bytes := [0x30, 0x07, 0x02, 0x01, 0x01, 0x02, 0x02, 0x00, 0x80]
    (EcdsaSignature.mk 1 128).toDer = .ok bytes ∧ ofDer bytes = .ok ⟨1, 128⟩ ∧
      ofDer (bytes ++ [0x00]) = .error .invalidSignatureEncoding ∧
      ofDer (bytes.take 7) = .error .invalidSignatureEncoding := by
  intro bytes
  obtain ⟨hbijective, -, -, hbehind, -⟩ := ofDer_toDer_strict
  have hwritten : (EcdsaSignature.mk 1 128).toDer = .ok bytes := by decide
  have hread := (hbijective _ _).mp hwritten
  exact ⟨hwritten, hread, (hbehind _ bytes [0x00] (by decide)).left hread,
    (hbehind _ (bytes.take 7) (bytes.drop 7) (by decide)).right hread⟩

end EcdsaSignature

end EllipticSignatures
