import EllipticSignatures.Proofs.Signature.Message

/-!
# The wire form of message signatures

A message signature is sent as 65 bytes in base 64: a header, which tells the form of the public
point and the recovery number, and two numbers of 32 bytes. There are eight headers, one for each
form and recovery number, and every other first byte is refused.

- `MessageSignature.ofBytes_eq_ok_iff`: a signature is read exactly from its own bytes;
- `MessageSignature.exists_eq_toBytes_iff`: which bytes are those of a signature;
- `messageSignature_wire_exact`: a signature is read exactly from its own text, with white space
  around it.

65 is not a multiple of three, so the last group of a text has padding and four spare bits. Only
`Base64.decodeChars?_eq_some_iff` excludes a second text of the same bytes.
-/

namespace EllipticSignatures

namespace MessageSignature

/-! ## Headers -/

theorem ofHeader?_eq (first : UInt8) :
    ofHeader? first = if first.toNat < 27 ∨ 35 ≤ first.toNat then none
      else some (if 31 ≤ first.toNat then .compressed else .uncompressed,
        Fin.ofNat 4 (first.toNat - 27)) := rfl

/-- The first bytes that tell a form and a recovery number are those from 27 to 34. -/
theorem exists_ofHeader?_iff {first : UInt8} :
    (∃ told, ofHeader? first = some told) ↔ 27 ≤ first.toNat ∧ first.toNat ≤ 34 := by
  rw [ofHeader?_eq]
  by_cases hrange : first.toNat < 27 ∨ 35 ≤ first.toNat
  · rw [if_pos hrange]
    simp only [reduceCtorEq, exists_false, false_iff]
    omega
  · rw [if_neg hrange]
    simp only [Option.some.injEq, exists_eq', true_iff]
    omega

/-- A first byte is the header of every signature with the form and the recovery number that it
tells. -/
theorem header_of_ofHeader? {first : UInt8} {format : PointFormat} {recovery : Fin 4}
    (h : ofHeader? first = some (format, recovery)) (r s : Block 32) :
    (⟨format, recovery, r, s⟩ : MessageSignature).header = first := by
  have hrange := exists_ofHeader?_iff.mp ⟨_, h⟩
  rw [ofHeader?_eq, if_neg (by omega), Option.some.injEq, Prod.mk.injEq] at h
  obtain ⟨hformat, rfl⟩ := h
  rw [← UInt8.toNat_inj, toNat_header, Fin.val_ofNat, ← hformat]
  -- The upper half of the range belongs to the compressed form.
  by_cases hcompressed : 31 ≤ first.toNat
  · rw [if_pos hcompressed, if_pos rfl]
    omega
  · rw [if_neg hcompressed, if_neg (by simp)]
    omega

/-! ## Bytes -/

theorem ofBytes?_eq_some_iff {bytes : Bytes} {sig : MessageSignature} :
    ofBytes? bytes = some sig ↔ bytes = sig.toBytes := by
  constructor
  · intro h
    cases bytes with
    | nil => cases h
    | cons first body =>
      simp only [ofBytes?, Option.bind_eq_bind, Option.bind_eq_some_iff,
        Block.ofBytes?_eq_some_iff] at h
      obtain ⟨⟨format, recovery⟩, hheader, r, hr, s, hs, hsig⟩ := h
      obtain rfl := Option.some.inj hsig
      rw [toBytes, header_of_ofHeader? hheader, hr, hs, List.take_append_drop]
  · rintro rfl
    simp [ofBytes?, toBytes, ofHeader?_header]

/-- A signature is read exactly from its own bytes. -/
theorem ofBytes_eq_ok_iff {bytes : Bytes} {sig : MessageSignature} :
    ofBytes bytes = .ok sig ↔ bytes = sig.toBytes := by
  rw [← ofBytes?_eq_some_iff, ofBytes]
  cases ofBytes? bytes <;> simp

/-- The bytes of signatures are the strings of 65 bytes that start with a byte from 27 to 34. -/
theorem exists_eq_toBytes_iff {bytes : Bytes} :
    (∃ sig : MessageSignature, bytes = sig.toBytes) ↔ bytes.length = 65 ∧
      ∃ first ∈ bytes.head?, 27 ≤ first.toNat ∧ first.toNat ≤ 34 := by
  constructor
  · rintro ⟨sig, rfl⟩
    exact ⟨sig.length_toBytes, sig.header, rfl,
      exists_ofHeader?_iff.mp ⟨_, sig.ofHeader?_header⟩⟩
  · rintro ⟨hlength, first, hfirst, hrange⟩
    obtain ⟨body, rfl⟩ := List.head?_eq_some_iff.mp hfirst
    rw [List.length_cons] at hlength
    obtain ⟨⟨format, recovery⟩, htold⟩ := exists_ofHeader?_iff.mpr hrange
    -- The other 64 bytes are the two numbers.
    let r : Block 32 := ⟨body.take 32, by rw [List.length_take]; omega⟩
    let s : Block 32 := ⟨body.drop 32, by rw [List.length_drop]; omega⟩
    refine ⟨⟨format, recovery, r, s⟩, ?_⟩
    rw [toBytes, header_of_ofHeader? htold, List.take_append_drop]

/-! ## Texts -/

/-- A signature is read exactly from its own text with white space around it. -/
theorem ofBase64_eq_ok_iff {text : String} {sig : MessageSignature} :
    ofBase64 text = .ok sig ↔ Blank.trim text = sig.toBase64 := by
  have hwritten : Blank.trim text = sig.toBase64 ↔
      Base64.decodeChars? (Blank.trim text).toList = some sig.toBytes := by
    rw [Base64.decodeChars?_eq_some_iff, toBase64]
    constructor
    · intro h
      rw [h, String.toList_ofList]
    · intro h
      rw [← h, String.ofList_toList]
  rw [hwritten, ofBase64]
  cases Base64.decodeChars? (Blank.trim text).toList with
  | none => simp
  | some bytes => rw [ofBytes_eq_ok_iff, Option.some.injEq]

end MessageSignature

/-- The wire form of message signatures is canonical. A text is read as a signature exactly if,
without the white space around it, it is the text of that signature. Bytes are read as a signature
exactly if they are its bytes. These are the strings of 65 bytes that start with a byte from 27 to
34, and each of them is read as a signature and written again as it was. -/
theorem messageSignature_wire_exact :
    (∀ (text : String) (sig : MessageSignature),
      MessageSignature.ofBase64 text = .ok sig ↔ Blank.trim text = sig.toBase64) ∧
    (∀ (bytes : Bytes) (sig : MessageSignature),
      MessageSignature.ofBytes bytes = .ok sig ↔ bytes = sig.toBytes) ∧
    ∀ bytes : Bytes, (∃ sig, MessageSignature.ofBytes bytes = .ok sig ∧ sig.toBytes = bytes) ↔
      bytes.length = 65 ∧
        ∃ first ∈ bytes.head?, 27 ≤ first.toNat ∧ first.toNat ≤ 34 := by
  refine ⟨fun _ _ => MessageSignature.ofBase64_eq_ok_iff,
    fun _ _ => MessageSignature.ofBytes_eq_ok_iff, fun bytes => ?_⟩
  rw [← MessageSignature.exists_eq_toBytes_iff]
  constructor
  · rintro ⟨sig, -, rfl⟩
    exact ⟨sig, rfl⟩
  · rintro ⟨sig, rfl⟩
    exact ⟨sig, sig.ofBytes_toBytes, rfl⟩

end EllipticSignatures
