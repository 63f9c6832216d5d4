import EllipticSignatures.Encoding.Signature
import EllipticSignatures.Proofs.Encoding.Record
import EllipticSignatures.Proofs.Signature.Message

/-!
# Stored values are read back

Reading undoes storing for every kind of value but keys, whatever bytes follow the record
(`ofRecord_toRecord_append_iff`). A value is read back exactly if its reader does not refuse it:
elements have to be reduced under a modulus above one, scalars in the range of the default curve,
and every number countable (`Record.Countable`). Signatures of fixed width are always read back.

Points are stored with their coordinates as they are. It does not matter whether they lie on a
curve, whether their moduli agree or whether `z` is zero.
-/

namespace EllipticSignatures

open Record

/-! ## Elements and points -/

/-- The element is reduced under a modulus above one whose digits can be counted. -/
structure FieldElement.Storable (a : FieldElement) : Prop where
  /-- The modulus exceeds one. -/
  two_le_modulus : 2 ≤ a.modulus
  /-- The residue is below the modulus. -/
  reduced : a.Reduced
  /-- The digits of the modulus, and so those of the residue, can be counted. -/
  countable : Countable a.modulus

/-- Each coordinate is storable under its own modulus. -/
def Affine.Storable : Affine → Prop
  | .infinity => True
  | .point x y => x.Storable ∧ y.Storable

/-- Each coordinate is storable under its own modulus. -/
def Projective.Storable : Projective → Prop
  | .infinity => True
  | .point x y z => x.Storable ∧ y.Storable ∧ z.Storable

namespace FieldElement

variable {a : FieldElement}

/-- The checks of the reader pass for a storable element. -/
theorem Storable.reads (h : a.Storable) : Reads reader a.toRecord a := by
  have hmodulus : ¬a.modulus ≤ 1 := not_le.mpr h.two_le_modulus
  have hvalue : ¬a.modulus ≤ a.value := not_le.mpr h.reduced
  apply (reads_number (h.countable.mono h.reduced.le)).bind
  apply (reads_number h.countable).bind_last
  rw [if_neg hmodulus, if_neg hvalue]
  exact reads_pure a

/-- Only a storable element is read back. -/
theorem storable_of_reader {rest rest' : Bytes}
    (h : reader (a.toRecord ++ rest) = .ok (a, rest')) : a.Storable := by
  rw [toRecord, List.append_assoc] at h
  obtain ⟨value, middle, hvalue, h⟩ := bind_apply_eq_ok.mp h
  obtain ⟨modulus, middle', hmodulus, h⟩ := bind_apply_eq_ok.mp h
  by_cases hsmall : modulus ≤ 1
  · rw [if_pos hsmall] at h
    cases h
  by_cases hlarge : modulus ≤ value
  · rw [if_neg hsmall, if_pos hlarge] at h
    cases h
  rw [if_neg hsmall, if_neg hlarge] at h
  obtain ⟨rfl, rfl⟩ := Prod.mk.inj (Except.ok.inj h)
  -- The residue has been read back, so the modulus starts where it was written.
  obtain ⟨-, rfl⟩ := (readsBack_number _ _ _).mp hvalue
  obtain ⟨hcountable, -⟩ := (readsBack_number _ _ _).mp hmodulus
  exact ⟨not_le.mp hsmall, not_le.mp hlarge, hcountable⟩

theorem readsBack : ReadsBack reader toRecord Storable :=
  readsBack_of_reads (fun _ => Storable.reads) fun _ _ _ => storable_of_reader

end FieldElement

theorem Record.reads_infinityTag : Reads (takeWord 4) (word 4 infinityTag) infinityTag :=
  reads_word (by norm_num [infinityTag])

theorem Record.reads_pointTag : Reads (takeWord 4) (word 4 pointTag) pointTag :=
  reads_word (by norm_num [pointTag])

namespace Affine

/-- After the tag of a point its coordinates are read. -/
theorem reader_pointTag (bytes : Bytes) :
    reader (word 4 pointTag ++ bytes) = (do
      let x ← FieldElement.reader
      return .point x (← FieldElement.reader) : Reader Affine) bytes := by
  rw [reader, reads_pointTag.bind_apply, if_neg (by decide), if_pos rfl]

theorem reader_infinityTag (bytes : Bytes) :
    reader (word 4 infinityTag ++ bytes) = .ok (.infinity, bytes) := by
  rw [reader, reads_infinityTag.bind_apply, if_pos rfl]
  rfl

theorem readsBack : ReadsBack reader toRecord Storable := by
  intro P rest rest'
  cases P with
  | infinity =>
    rw [toRecord, reader_infinityTag, Except.ok.injEq, Prod.mk.injEq, eq_comm (a := rest)]
    exact ⟨fun h => ⟨trivial, h.right⟩, fun h => ⟨rfl, h.right⟩⟩
  | point x y =>
    rw [toRecord, List.append_assoc, List.append_assoc, reader_pointTag]
    constructor
    · intro h
      obtain ⟨x', middle, hx, h⟩ := bind_apply_eq_ok.mp h
      obtain ⟨y', middle', hy, h⟩ := bind_apply_eq_ok.mp h
      obtain ⟨⟨⟩, rfl⟩ := Prod.mk.inj (Except.ok.inj h)
      -- Each coordinate has been read back, so the next one starts where it was written.
      obtain ⟨hxs, rfl⟩ := (FieldElement.readsBack _ _ _).mp hx
      obtain ⟨hys, rfl⟩ := (FieldElement.readsBack _ _ _).mp hy
      exact ⟨⟨hxs, hys⟩, rfl⟩
    · rintro ⟨⟨hx, hy⟩, rfl⟩
      rw [hx.reads.bind_apply, hy.reads.bind_apply]
      rfl

end Affine

namespace Projective

/-- After the tag of a point its coordinates are read. -/
theorem reader_pointTag (bytes : Bytes) :
    reader (word 4 pointTag ++ bytes) = (do
      let x ← FieldElement.reader
      let y ← FieldElement.reader
      return .point x y (← FieldElement.reader) : Reader Projective) bytes := by
  rw [reader, reads_pointTag.bind_apply, if_neg (by decide), if_pos rfl]

theorem reader_infinityTag (bytes : Bytes) :
    reader (word 4 infinityTag ++ bytes) = .ok (.infinity, bytes) := by
  rw [reader, reads_infinityTag.bind_apply, if_pos rfl]
  rfl

theorem readsBack : ReadsBack reader toRecord Storable := by
  intro P rest rest'
  cases P with
  | infinity =>
    rw [toRecord, reader_infinityTag, Except.ok.injEq, Prod.mk.injEq, eq_comm (a := rest)]
    exact ⟨fun h => ⟨trivial, h.right⟩, fun h => ⟨rfl, h.right⟩⟩
  | point x y z =>
    rw [toRecord, List.append_assoc, List.append_assoc, List.append_assoc, reader_pointTag]
    constructor
    · intro h
      obtain ⟨x', middle, hx, h⟩ := bind_apply_eq_ok.mp h
      obtain ⟨y', middle', hy, h⟩ := bind_apply_eq_ok.mp h
      obtain ⟨z', middle'', hz, h⟩ := bind_apply_eq_ok.mp h
      obtain ⟨⟨⟩, rfl⟩ := Prod.mk.inj (Except.ok.inj h)
      obtain ⟨hxs, rfl⟩ := (FieldElement.readsBack _ _ _).mp hx
      obtain ⟨hys, rfl⟩ := (FieldElement.readsBack _ _ _).mp hy
      obtain ⟨hzs, rfl⟩ := (FieldElement.readsBack _ _ _).mp hz
      exact ⟨⟨hxs, hys, hzs⟩, rfl⟩
    · rintro ⟨⟨hx, hy, hz⟩, rfl⟩
      rw [hx.reads.bind_apply, hy.reads.bind_apply, hz.reads.bind_apply]
      rfl

end Projective

/-! ## Scalars -/

namespace Scalar

variable {s : Scalar}

/-- A number below the group order of the default curve has at most 32 bytes. -/
theorem countable_of_inScalarRange (h : Curve.secp256k1.inScalarRange s.value) :
    Countable s.value := by
  have hbytes : byteLength s.value ≤ 32 := by
    apply byteLength_le_iff.mpr
    apply (Curve.inScalarRange_iff.mp h).right.trans
    norm_num [Curve.secp256k1]
  exact countable_of_byteLength_le (hbytes.trans (by norm_num))

theorem readsBack : ReadsBack reader toRecord fun s => Curve.secp256k1.inScalarRange s.value := by
  apply readsBack_of_reads
  · intro s hs
    apply (reads_number (countable_of_inScalarRange hs)).bind_last
    rw [ofNat, if_pos hs]
    exact reads_pure s
  · intro s rest rest' h
    obtain ⟨value, middle, -, h⟩ := bind_apply_eq_ok.mp h
    by_cases hvalue : Curve.secp256k1.inScalarRange value
    · rw [ofNat, if_pos hvalue] at h
      obtain ⟨rfl, -⟩ := Prod.mk.inj (Except.ok.inj h)
      exact hvalue
    · rw [ofNat, if_neg hvalue] at h
      cases h

end Scalar

/-! ## Signatures -/

theorem EcdsaSignature.readsBack :
    ReadsBack reader toRecord fun sig => Countable sig.r ∧ Countable sig.s := by
  intro sig rest rest'
  rw [toRecord, List.append_assoc]
  constructor
  · intro h
    obtain ⟨r, middle, hr, h⟩ := bind_apply_eq_ok.mp h
    obtain ⟨s, middle', hs, h⟩ := bind_apply_eq_ok.mp h
    obtain ⟨rfl, rfl⟩ := Prod.mk.inj (Except.ok.inj h)
    obtain ⟨hrc, rfl⟩ := (readsBack_number _ _ _).mp hr
    obtain ⟨hsc, rfl⟩ := (readsBack_number _ _ _).mp hs
    exact ⟨⟨hrc, hsc⟩, rfl⟩
  · rintro ⟨⟨hr, hs⟩, rfl⟩
    rw [reader, (reads_number hr).bind_apply, (reads_number hs).bind_apply]
    rfl

/-- The bytes of a block are taken as that block. -/
theorem SchnorrSignature.reads_block (block : Block 32) :
    Reads blockReader block.bytes block := by
  apply (reads_takeBytes block.length_eq).bind_last
  rw [Block.ofBytes?_bytes]
  exact reads_pure block

theorem SchnorrSignature.reads (sig : SchnorrSignature) : Reads reader sig.toRecord sig :=
  (reads_block sig.r).bind ((reads_block sig.s).bind_last (reads_pure sig))

namespace MessageSignature

/-- A message signature is read back from the front of any bytes. -/
theorem ofRecord_toRecord_append (sig : MessageSignature) (rest : Bytes) :
    ofRecord (sig.toRecord ++ rest) = .ok sig := by
  have hlength : sig.toBytes.length < 256 ^ 8 := by
    rw [length_toBytes]
    norm_num [encodedBytes]
  rw [ofRecord, toRecord, (reads_byteString hlength).read_append, ok_bind, ofBytes_toBytes,
    mapError_ok]

end MessageSignature

/-! ## All values -/

/-- Reading undoes storing, whatever bytes follow: exactly the storable elements and points, the
scalars in the range of the default curve and the signatures of countable numbers are read back,
and every signature of fixed width. A number is stored as the counted digits to base 2³², least
significant first. -/
theorem ofRecord_toRecord_append_iff (rest : Bytes) :
    (∀ a : FieldElement, FieldElement.ofRecord (a.toRecord ++ rest) = .ok a ↔ a.Storable) ∧
    (∀ P : Affine, Affine.ofRecord (P.toRecord ++ rest) = .ok P ↔ P.Storable) ∧
    (∀ P : Projective, Projective.ofRecord (P.toRecord ++ rest) = .ok P ↔ P.Storable) ∧
    (∀ s : Scalar, Scalar.ofRecord (s.toRecord ++ rest) = .ok s ↔
      1 ≤ s.value ∧ s.value < Curve.secp256k1.n) ∧
    (∀ sig : EcdsaSignature, EcdsaSignature.ofRecord (sig.toRecord ++ rest) = .ok sig ↔
      Countable sig.r ∧ Countable sig.s) ∧
    (∀ sig : SchnorrSignature, SchnorrSignature.ofRecord (sig.toRecord ++ rest) = .ok sig) ∧
    (∀ sig : MessageSignature, MessageSignature.ofRecord (sig.toRecord ++ rest) = .ok sig) ∧
    ∀ n, number n = count (Nat.digits digitBase n).length ++
      (Nat.digits digitBase n).flatMap (word 4) := by
  refine ⟨fun a => ?_, fun P => ?_, fun P => ?_, fun s => ?_, fun sig => ?_, fun sig => ?_,
    fun sig => ?_, fun n => ?_⟩
  · exact FieldElement.readsBack.read_append_iff a rest
  · exact Affine.readsBack.read_append_iff P rest
  · exact Projective.readsBack.read_append_iff P rest
  · rw [← Curve.inScalarRange_iff]
    exact Scalar.readsBack.read_append_iff s rest
  · exact EcdsaSignature.readsBack.read_append_iff sig rest
  · exact (SchnorrSignature.reads sig).read_append rest
  · exact sig.ofRecord_toRecord_append rest
  · exact number_eq n

/-- A point with three moduli and `z` zero is read back, with a byte after its record. -/
theorem ofRecord_toRecord_mixed_moduli :
    Projective.ofRecord ((Projective.point ⟨3, 7⟩ ⟨2 ^ 40, 2 ^ 61 - 1⟩ ⟨0, 2⟩).toRecord ++ [0xff]) =
      .ok (.point ⟨3, 7⟩ ⟨2 ^ 40, 2 ^ 61 - 1⟩ ⟨0, 2⟩) := by
  obtain ⟨-, -, hprojective, -⟩ := ofRecord_toRecord_append_iff [0xff]
  apply (hprojective _).mpr
  refine ⟨⟨?_, ?_, ?_⟩, ⟨?_, ?_, ?_⟩, ?_, ?_, ?_⟩ <;> decide

end EllipticSignatures
