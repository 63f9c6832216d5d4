import Mathlib.Data.List.TakeWhile
import EllipticSignatures.Text.Base58
import EllipticSignatures.Text.Blank
import EllipticSignatures.Proofs.Bytes

/-!
# Base 58 is one to one

`Base58.Writes` is the format as a relation of characters and bytes: digits of the alphabet, as many
zero digits in front as zero bytes, and one number. The characters that `encodeChars` gives are the
only ones that write a byte string, and it is the byte string that `decodeChars?` reads from them
(`eq_encodeChars_iff_writes`, `decodeChars?_eq_some_iff`).
-/

namespace EllipticSignatures

/-- The items equal to `a` in front of a list are as many copies of `a`. -/
theorem replicate_length_takeWhile {α : Type} [BEq α] [LawfulBEq α] (a : α) (items : List α) :
    List.replicate (items.takeWhile (· == a)).length a = items.takeWhile (· == a) := by
  symm
  rw [List.eq_replicate_iff]
  exact ⟨rfl, fun item hitem => by simpa using List.mem_takeWhile_imp hitem⟩

namespace Base58

theorem value?_digit : ∀ v < 58, value? (digit v) = some v := by decide

theorem isBlank_digit : ∀ v < 58, Blank.isBlank (digit v) = false := by decide

/-- The characters of digits are read back. -/
theorem mapM_value?_map_digit {ds : List ℕ} (h : ∀ d ∈ ds, d < 58) :
    (ds.map digit).mapM value? = some ds := by
  induction ds with
  | nil => rfl
  | cons d ds ih =>
    obtain ⟨hd, hds⟩ := List.forall_mem_cons.mp h
    simp [value?_digit d hd, ih hds]

/-- The written digits: one zero for each leading zero byte, then those of the number. -/
def digitsOf (bytes : Bytes) : List ℕ :=
  List.replicate (bytes.takeWhile (· == 0)).length 0 ++ Radix.digits 58 bytes.toNat

theorem lt_of_mem_digitsOf {bytes : Bytes} {d : ℕ} (h : d ∈ digitsOf bytes) : d < 58 := by
  rcases List.mem_append.mp h with h | h
  · rw [List.eq_of_mem_replicate h]
    norm_num
  · exact Radix.lt_of_mem_digits (by decide) h

theorem encodeChars_eq (bytes : Bytes) : encodeChars bytes = (digitsOf bytes).map digit := by
  rw [encodeChars, digitsOf, List.map_append, List.map_replicate]

/-- Without its leading zeros, a byte string is written by the digits of its number. -/
theorem digits_toNat (bytes : Bytes) :
    (Radix.digits 256 bytes.toNat).map UInt8.ofNat = bytes.dropWhile (· == 0) := by
  have hzero : ((· == 0) : ℕ → Bool) ∘ UInt8.toNat = (· == 0) := by
    funext b
    rw [Function.comp_apply, Bool.eq_iff_iff, beq_iff_eq, beq_iff_eq, ← UInt8.toNat_inj]
    rfl
  rw [Bytes.toNat_eq_ofDigits, Radix.digits_ofDigits (by decide) fun d => Bytes.lt_of_mem_map_toNat,
    List.dropWhile_map, hzero, Bytes.map_ofNat_map_toNat]

/-- There are as many zero digits in front as zero bytes. -/
theorem leading_digitsOf (bytes : Bytes) :
    ((digitsOf bytes).takeWhile (· == 0)).length = (bytes.takeWhile (· == 0)).length := by
  rw [digitsOf, List.takeWhile_append_of_pos (by simp), Radix.takeWhile_digits]
  simp

/-- The written digits are those of the number of the bytes. -/
theorem ofDigits_digitsOf (bytes : Bytes) : Radix.ofDigits 58 (digitsOf bytes) = bytes.toNat := by
  rw [digitsOf, Radix.ofDigits_replicate_append, Radix.ofDigits_digits (by decide)]

/-- A byte string is its leading zeros and the bytes of its number. -/
theorem replicate_append_digits (bytes : Bytes) :
    List.replicate (bytes.takeWhile (· == 0)).length 0 ++
      (Radix.digits 256 bytes.toNat).map UInt8.ofNat = bytes := by
  rw [replicate_length_takeWhile, digits_toNat, List.takeWhile_append_dropWhile]

theorem decodeChars?_encodeChars (bytes : Bytes) :
    decodeChars? (encodeChars bytes) = some bytes := by
  -- The zeros are counted, the other digits are read as a number and written as bytes.
  rw [encodeChars_eq, decodeChars?, mapM_value?_map_digit fun d => lt_of_mem_digitsOf]
  simp only [Option.bind_eq_bind, Option.bind_some, Option.pure_def, leading_digitsOf,
    ofDigits_digitsOf, replicate_append_digits]

/-- A character with a value is the digit of that value. -/
theorem digit_of_value? {c : Char} {v : ℕ} (h : value? c = some v) : v < 58 ∧ digit v = c := by
  obtain ⟨hv, hget, -⟩ := List.idxOf?_eq_some_iff.mp h
  refine ⟨hv, ?_⟩
  rw [digit, List.getD, List.getElem?_eq_getElem hv, Option.getD_some, hget]

/-- Characters that are read as digits are the characters of those digits. -/
theorem map_digit_of_mapM_value? {chars : List Char} {ds : List ℕ}
    (h : chars.mapM value? = some ds) : ds.map digit = chars ∧ ∀ d ∈ ds, d < 58 := by
  induction chars generalizing ds with
  | nil =>
    obtain rfl : ds = [] := by simpa [eq_comm] using h
    simp
  | cons c chars ih =>
    simp only [List.mapM_cons, Option.bind_eq_bind, Option.bind_eq_some_iff, Option.pure_def,
      Option.some.injEq] at h
    obtain ⟨d, hd, rest, hrest, rfl⟩ := h
    obtain ⟨hlt, hdigit⟩ := digit_of_value? hd
    obtain ⟨hmap, hall⟩ := ih hrest
    exact ⟨by rw [List.map_cons, hdigit, hmap], List.forall_mem_cons.mpr ⟨hlt, hall⟩⟩

/-- The bytes of a number, as many zero bytes as wanted in front, write the number. -/
theorem toNat_replicate_append (zeros number : ℕ) :
    Bytes.toNat (List.replicate zeros 0 ++ (Radix.digits 256 number).map UInt8.ofNat) =
      number := by
  have hdigits : ∀ d ∈ Radix.digits 256 number, d < 256 := by
    intro d hd
    exact Radix.lt_of_mem_digits (by decide) hd
  rw [Bytes.toNat_eq_ofDigits, List.map_append, List.map_replicate, UInt8.toNat_zero,
    Radix.ofDigits_replicate_append, Bytes.map_toNat_map_ofNat hdigits,
    Radix.ofDigits_digits (by decide)]

/-- The written digits are read back from the byte string: its leading zero bytes are the leading
zero digits, and its number is that of the digits. -/
theorem digitsOf_eq {ds : List ℕ} (h : ∀ d ∈ ds, d < 58) :
    digitsOf (List.replicate (ds.takeWhile (· == 0)).length 0 ++
      (Radix.digits 256 (Radix.ofDigits 58 ds)).map UInt8.ofNat) = ds := by
  set number := Radix.ofDigits 58 ds with hnumber
  -- The bytes of the number do not begin with a zero, so the leading zeros are those in front.
  have hplain : ((Radix.digits 256 number).map UInt8.ofNat).takeWhile (· == 0) = [] := by
    have hdrop := digits_toNat ((Radix.digits 256 number).map UInt8.ofNat)
    have hvalue := toNat_replicate_append 0 number
    rw [List.replicate_zero, List.nil_append] at hvalue
    rw [hvalue] at hdrop
    exact List.takeWhile_eq_nil_iff.mpr (List.dropWhile_eq_self_iff.mp hdrop.symm)
  rw [digitsOf, toNat_replicate_append, List.takeWhile_append_of_pos (by simp), hplain,
    List.append_nil, List.length_replicate, replicate_length_takeWhile, hnumber,
    Radix.digits_ofDigits (by decide) h, List.takeWhile_append_dropWhile]

/-- A byte string is read exactly from the characters that write it. -/
theorem decodeChars?_eq_some_iff {chars : List Char} {bytes : Bytes} :
    decodeChars? chars = some bytes ↔ chars = encodeChars bytes := by
  constructor
  · intro h
    simp only [decodeChars?, Option.bind_eq_bind, Option.bind_eq_some_iff, Option.pure_def,
      Option.some.injEq] at h
    obtain ⟨ds, hds, rfl⟩ := h
    obtain ⟨hmap, hlt⟩ := map_digit_of_mapM_value? hds
    rw [encodeChars_eq, digitsOf_eq hlt, hmap]
  · rintro rfl
    exact decodeChars?_encodeChars bytes

/-! ## The format as a relation -/

/-- The characters write the byte string. -/
structure Writes (chars : List Char) (bytes : Bytes) : Prop where
  /-- The characters are digits. -/
  mem_alphabet : ∀ ch ∈ chars, ch ∈ alphabet
  /-- There are as many zero digits in front as zero bytes. -/
  leading : (chars.takeWhile (· == '1')).length = (bytes.takeWhile (· == 0)).length
  /-- The digits and the bytes, least significant first, are those of one number. -/
  number : Nat.ofDigits 58 (chars.map alphabet.idxOf).reverse =
    Nat.ofDigits 256 (bytes.map UInt8.toNat).reverse

theorem idxOf_digit : ∀ v < 58, alphabet.idxOf (digit v) = v := by decide

theorem digit_mem_alphabet : ∀ v < 58, digit v ∈ alphabet := by decide

theorem idxOf_eq_zero_iff {ch : Char} : alphabet.idxOf ch = 0 ↔ ch = '1' := by
  constructor
  · intro h
    have hlt : alphabet.idxOf ch < alphabet.length := by
      rw [h]
      decide
    have hget := List.getElem_idxOf hlt
    simp only [h] at hget
    exact hget.symm
  · rintro rfl
    rfl

/-- Characters of the alphabet are read as their positions. -/
theorem mapM_value?_eq {chars : List Char} (h : ∀ ch ∈ chars, ch ∈ alphabet) :
    chars.mapM value? = some (chars.map alphabet.idxOf) := by
  induction chars with
  | nil => rfl
  | cons ch chars ih =>
    obtain ⟨hch, hchars⟩ := List.forall_mem_cons.mp h
    have hvalue : value? ch = some (alphabet.idxOf ch) :=
      List.findIdx?_eq_some_of_exists ⟨ch, hch, beq_self_eq_true ch⟩
    simp [hvalue, ih hchars]

/-- The zero digits in front of the characters are those in front of their positions. -/
theorem leading_map_idxOf (chars : List Char) :
    ((chars.map alphabet.idxOf).takeWhile (· == 0)).length =
      (chars.takeWhile (· == '1')).length := by
  have hzero : ((· == 0) : ℕ → Bool) ∘ alphabet.idxOf = (· == '1') := by
    funext ch
    rw [Function.comp_apply, Bool.eq_iff_iff, beq_iff_eq, beq_iff_eq, idxOf_eq_zero_iff]
  rw [List.takeWhile_map, List.length_map, hzero]

/-- A byte string is written by the characters that encode it. -/
theorem writes_encodeChars (bytes : Bytes) : Writes (encodeChars bytes) bytes := by
  have hlt : ∀ d ∈ digitsOf bytes, d < 58 := fun d => lt_of_mem_digitsOf
  have hpositions : ((digitsOf bytes).map digit).map alphabet.idxOf = digitsOf bytes := by
    rw [List.map_map]
    conv_rhs => rw [← List.map_id (digitsOf bytes)]
    exact List.map_congr_left fun d hd => idxOf_digit d (hlt d hd)
  rw [encodeChars_eq]
  refine ⟨?_, ?_, ?_⟩
  · intro ch hch
    obtain ⟨d, hd, rfl⟩ := List.mem_map.mp hch
    exact digit_mem_alphabet d (hlt d hd)
  · rw [← leading_map_idxOf, hpositions, leading_digitsOf]
  · rw [hpositions, ← Radix.value_eq_natOfDigits, ← Radix.value_eq_natOfDigits,
      ← Radix.ofDigits_eq_value, ← Radix.ofDigits_eq_value, ofDigits_digitsOf,
      Bytes.toNat_eq_ofDigits]

/-- The format leaves one byte string for given characters, which is the one that is read. -/
theorem Writes.decodeChars? {chars : List Char} {bytes : Bytes} (h : Writes chars bytes) :
    decodeChars? chars = some bytes := by
  have hnumber : Radix.ofDigits 58 (chars.map alphabet.idxOf) = bytes.toNat := by
    rw [Bytes.toNat_eq_ofDigits, Radix.ofDigits_eq_value, Radix.ofDigits_eq_value,
      Radix.value_eq_natOfDigits, Radix.value_eq_natOfDigits, h.number]
  rw [Base58.decodeChars?, mapM_value?_eq h.mem_alphabet]
  simp only [Option.bind_eq_bind, Option.bind_some, Option.pure_def, leading_map_idxOf, h.leading,
    hnumber, replicate_append_digits]

/-- The characters that encode a byte string are the only ones that write it. -/
theorem eq_encodeChars_iff_writes {chars : List Char} {bytes : Bytes} :
    chars = encodeChars bytes ↔ Writes chars bytes := by
  constructor
  · rintro rfl
    exact writes_encodeChars bytes
  · intro h
    exact decodeChars?_eq_some_iff.mp h.decodeChars?

theorem isBlank_of_mem_encodeChars {bytes : Bytes} {c : Char} (h : c ∈ encodeChars bytes) :
    Blank.isBlank c = false := by
  rw [encodeChars_eq] at h
  obtain ⟨d, hd, rfl⟩ := List.mem_map.mp h
  exact isBlank_digit d (lt_of_mem_digitsOf hd)

end Base58

end EllipticSignatures
