import EllipticSignatures.Proofs.Text.Base58

/-!
# Payloads with a checksum are read exactly

A payload is read exactly from the text that writes it (`Base58Check.decode?_eq_some_iff`), and that
text is the only one that writes the payload and its checksum in base 58. Nothing in this depends on
how a digest is computed, and the main result is about any digests (`base58Check_exact`).
-/

namespace EllipticSignatures

namespace Base58Check

variable [Digests]

theorem length_checksum (payload : Bytes) : (checksum payload).length = checksumBytes := by
  rw [checksum, List.length_take, Block.length_eq]
  rfl

/-- A payload is read back from its text. -/
theorem decode?_encode (payload : Bytes) : decode? (encode payload) = some payload := by
  have hlength : (payload ++ checksum payload).length - checksumBytes = payload.length := by
    rw [List.length_append, length_checksum, Nat.add_sub_cancel]
  have hshort : ¬(payload ++ checksum payload).length < checksumBytes := by
    rw [List.length_append, length_checksum]
    omega
  rw [decode?, encode, String.toList_ofList, Base58.decodeChars?_encodeChars]
  simp only [Option.bind_eq_bind, Option.bind_some, Option.pure_def, hshort, if_false, hlength,
    List.take_left, List.drop_left, if_true]

/-- A payload is read exactly from the text that writes it. -/
theorem decode?_eq_some_iff {text : String} {payload : Bytes} :
    decode? text = some payload ↔ text = encode payload := by
  constructor
  · intro h
    simp only [decode?, Option.bind_eq_bind, Option.bind_eq_some_iff] at h
    obtain ⟨data, hdata, h⟩ := h
    by_cases hshort : data.length < checksumBytes
    · simp [hshort] at h
    rw [if_neg hshort] at h
    obtain ⟨hchecksum, hsome⟩ := Option.ite_none_right_eq_some.mp h
    obtain rfl := Option.some.inj hsome
    -- The bytes are the payload and its checksum, and the characters are those that write them.
    rw [encode, ← hchecksum, List.take_append_drop, ← Base58.decodeChars?_eq_some_iff.mp hdata,
      String.ofList_toList]
  · rintro rfl
    exact decode?_encode payload

theorem encode_injective : Function.Injective encode := by
  intro first second h
  have hread := decode?_eq_some_iff.mpr h
  rw [decode?_encode] at hread
  exact Option.some.inj hread

/-- Every payload has a text of its own, and every text that is read is the text of a payload. -/
theorem bijOn_encode :
    Set.BijOn encode Set.univ {text | ∃ payload, decode? text = some payload} := by
  refine ⟨?_, encode_injective.injOn, ?_⟩
  · intro payload _
    exact ⟨payload, decode?_encode payload⟩
  · rintro text ⟨payload, h⟩
    exact ⟨payload, trivial, (decode?_eq_some_iff.mp h).symm⟩

/-- The characters of the text are the ones that write the payload and its checksum. -/
theorem eq_encode_iff_writes {text : String} {payload : Bytes} :
    text = encode payload ↔ Base58.Writes text.toList (payload ++ checksum payload) := by
  rw [← Base58.eq_encodeChars_iff_writes, encode, ← String.toList_inj, String.toList_ofList]

/-- The text of a payload has no white space. -/
theorem trim_encode (payload : Bytes) : Blank.trim (encode payload) = encode payload :=
  Blank.trim_ofList fun _ => Base58.isBlank_of_mem_encodeChars

end Base58Check

/-- Payloads with a checksum are read exactly, whatever the digest is. A text is read as a payload
exactly if it is the text of the payload, so writing is a bijection onto the texts that are read;
and a text is the one of a payload exactly if its characters write the payload and its checksum, the
first four bytes of its digest, in base 58. -/
theorem base58Check_exact [Digests] :
    (∀ text payload, Base58Check.decode? text = some payload ↔
      text = Base58Check.encode payload) ∧
    Set.BijOn Base58Check.encode Set.univ
      {text | ∃ payload, Base58Check.decode? text = some payload} ∧
    ∀ text payload, text = Base58Check.encode payload ↔
      Base58.Writes text.toList (payload ++ (Digests.double payload).bytes.take 4) :=
  ⟨fun _ _ => Base58Check.decode?_eq_some_iff, Base58Check.bijOn_encode,
    fun _ _ => Base58Check.eq_encode_iff_writes⟩

end EllipticSignatures
