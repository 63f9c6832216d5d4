import EllipticSignatures.Key.ImportFormat
import EllipticSignatures.Proofs.Curve.Secp256k1
import EllipticSignatures.Proofs.Key.Address
import EllipticSignatures.Proofs.Key.Signing

/-!
# Texts of keys and addresses are read exactly

The text of a key for import and the text of an address are both a payload with a checksum. What is
read is decided by the payload: its version tells the two kinds apart, and the length of the rest
tells the forms of a key apart, so that the flag of one form is never taken for the last byte of a
key in the other. A key is therefore read exactly from its own text in the same form
(`importText_address_exact`).
-/

namespace EllipticSignatures

open FieldElement

namespace SigningKey

/-! ## Bytes of a key -/

theorem scalarBytes_secp256k1 : Curve.secp256k1.scalarBytes = importBytes := by
  decide +kernel

/-- A scalar in range fits the bytes of a key. -/
theorem width_le_importBytes {k : ℕ} (h : Curve.secp256k1.inScalarRange k) :
    Bytes.width k ≤ importBytes := by
  rw [← scalarBytes_secp256k1]
  exact Curve.width_le_scalarBytes h

/-- The bytes of a key on the default curve are the big-endian form of its scalar. -/
theorem toBytes_eq {key : SigningKey} (hcurve : key.curve = Curve.secp256k1)
    (hrange : Curve.secp256k1.inScalarRange key.scalar.value) :
    key.toBytes = .ok (Bytes.bigEndian importBytes key.scalar.value) := by
  rw [← hcurve] at hrange
  rw [toBytes_of_inScalarRange hrange, hcurve, scalarBytes_secp256k1]

/-- Bytes are read as the key on the default curve whose scalar they write, if they are no more
than those of a key and the scalar is in range. -/
theorem ofBytes_eq_ok_iff_toNat {bytes : Bytes} {key : SigningKey} :
    ofBytes bytes = .ok key ↔ bytes.length ≤ importBytes ∧
      Curve.secp256k1.inScalarRange bytes.toNat ∧ key = ⟨⟨bytes.toNat⟩, Curve.secp256k1⟩ := by
  rw [ofBytes, Scalar.ofBytes, scalarBytes_secp256k1, Scalar.ofNat]
  by_cases hlong : importBytes < bytes.length
  · rw [if_pos hlong]
    constructor
    · intro h
      cases h
    · rintro ⟨hlength, -⟩
      exact absurd hlong (not_lt.mpr hlength)
  rw [if_neg hlong]
  by_cases hrange : Curve.secp256k1.inScalarRange bytes.toNat
  · rw [if_pos hrange, mapError_ok, ok_bind, pure_eq_ok, Except.ok.injEq, eq_comm]
    exact ⟨fun h => ⟨not_lt.mp hlong, hrange, h⟩, fun h => h.right.right⟩
  · rw [if_neg hrange]
    constructor
    · intro h
      cases h
    · rintro ⟨-, hread, -⟩
      exact absurd hread hrange

/-- A key is read from as many bytes as a key has exactly if they are its big-endian form. -/
theorem ofBytes_eq_ok_iff {bytes : Bytes} (hlength : bytes.length = importBytes)
    {key : SigningKey} :
    ofBytes bytes = .ok key ↔ key.curve = Curve.secp256k1 ∧
      Curve.secp256k1.inScalarRange key.scalar.value ∧
      bytes = Bytes.bigEndian importBytes key.scalar.value := by
  rw [ofBytes_eq_ok_iff_toNat]
  constructor
  · rintro ⟨-, hrange, rfl⟩
    exact ⟨rfl, hrange, by rw [← hlength, Bytes.bigEndian_toNat]⟩
  · obtain ⟨s, c⟩ := key
    rintro ⟨rfl, hrange, hbytes⟩
    have hnumber : bytes.toNat = s.value := by
      rw [hbytes, Bytes.toNat_bigEndian_of_width_le (width_le_importBytes hrange)]
    rw [hnumber]
    exact ⟨hlength.le, hrange, rfl⟩

/-! ## Payloads -/

/-- The bytes behind those of the key in a payload. -/
def importFlag : PointFormat → Bytes
  | .compressed => [compressedFlag]
  | .uncompressed => []

/-- A payload is split into a form and the bytes of a key exactly if they make up the payload. The
two forms have payloads of different lengths. -/
theorem splitPayload?_eq_some_iff {payload body : Bytes} {format : PointFormat} :
    splitPayload? payload = some (format, body) ↔
      body.length = importBytes ∧ payload = importVersion :: (body ++ importFlag format) := by
  constructor
  · intro h
    cases payload with
    | nil => simp [splitPayload?] at h
    | cons version rest =>
      by_cases hversion : version = importVersion
      swap
      · simp [splitPayload?, hversion] at h
      subst hversion
      simp only [splitPayload?, ne_eq, not_true_eq_false, if_false] at h
      by_cases hplain : rest.length = importBytes
      · rw [if_pos hplain] at h
        obtain ⟨rfl, rfl⟩ := Prod.mk.inj (Option.some.inj h)
        exact ⟨hplain, by rw [importFlag, List.append_nil]⟩
      · rw [if_neg hplain] at h
        obtain ⟨⟨hflagged, hlast⟩, hsome⟩ := Option.ite_none_right_eq_some.mp h
        obtain ⟨rfl, rfl⟩ := Prod.mk.inj (Option.some.inj hsome)
        -- The bytes before the flag are those of the key.
        have hinit : rest.take importBytes = rest.dropLast := by
          rw [List.dropLast_eq_take, hflagged, Nat.add_sub_cancel]
        refine ⟨List.length_take_of_le (by omega), ?_⟩
        rw [hinit, importFlag, List.dropLast_append_getLast? _ hlast]
  · rintro ⟨hlength, rfl⟩
    cases format with
    | uncompressed => simp [splitPayload?, importFlag, hlength]
    | compressed => simp [splitPayload?, importFlag, hlength, List.take_left' hlength]

/-! ## Texts -/

theorem toImportText_of_toBytes [Digests] {key : SigningKey} {bytes : Bytes}
    (h : key.toBytes = .ok bytes) (format : PointFormat) :
    key.toImportText format =
      .ok (Base58Check.encode (importVersion :: (bytes ++ importFlag format))) := by
  cases format <;> simp [toImportText, h, importFlag]

/-- Reading a text takes it apart into a payload, and the payload into a form and the bytes of a
key. -/
theorem ofImportText_eq_ok_iff_payload [Digests] {text : String} {key : SigningKey}
    {format : PointFormat} :
    ofImportText text = .ok (key, format) ↔ ∃ body, body.length = importBytes ∧
      Blank.trim text = Base58Check.encode (importVersion :: (body ++ importFlag format)) ∧
      ofBytes body = .ok key := by
  -- Both checks on the text together fix it; only the bytes of the key are still to be read.
  have hfound (form : PointFormat) (body : Bytes) :
      (Base58Check.decode? (Blank.trim text)).bind splitPayload? = some (form, body) ↔
        body.length = importBytes ∧
          Blank.trim text = Base58Check.encode (importVersion :: (body ++ importFlag form)) := by
    simp only [Option.bind_eq_some_iff, Base58Check.decode?_eq_some_iff, splitPayload?_eq_some_iff]
    constructor
    · rintro ⟨_, htext, hlength, rfl⟩
      exact ⟨hlength, htext⟩
    · rintro ⟨hlength, htext⟩
      exact ⟨_, htext, hlength, rfl⟩
  rw [ofImportText]
  constructor
  · intro h
    cases hsplit : (Base58Check.decode? (Blank.trim text)).bind splitPayload? with
    | none =>
      rw [hsplit] at h
      cases h
    | some found =>
      rw [hsplit] at h
      obtain ⟨read, hread, hpair⟩ := bind_eq_ok.mp h
      obtain ⟨rfl, rfl⟩ := Prod.mk.inj (Except.ok.inj hpair)
      obtain ⟨hlength, htext⟩ := (hfound found.1 found.2).mp hsplit
      exact ⟨found.2, hlength, htext, hread⟩
  · rintro ⟨body, hlength, htext, hread⟩
    rw [(hfound format body).mpr ⟨hlength, htext⟩]
    simp only [hread, ok_bind, pure_eq_ok]

/-- A key on the default curve has a text in both forms. -/
theorem exists_toImportText [Digests] {key : SigningKey} (hcurve : key.curve = Curve.secp256k1)
    (hrange : Curve.secp256k1.inScalarRange key.scalar.value) (format : PointFormat) :
    ∃ written, key.toImportText format = .ok written :=
  ⟨_, toImportText_of_toBytes (toBytes_eq hcurve hrange) format⟩

/-- A key is read exactly from its own text with white space around it. -/
theorem ofImportText_eq_ok_iff [Digests] {text : String} {key : SigningKey}
    {format : PointFormat} :
    ofImportText text = .ok (key, format) ↔ key.curve = Curve.secp256k1 ∧
      Curve.secp256k1.inScalarRange key.scalar.value ∧
      key.toImportText format = .ok (Blank.trim text) := by
  rw [ofImportText_eq_ok_iff_payload]
  constructor
  · rintro ⟨body, hlength, htext, hread⟩
    obtain ⟨hcurve, hrange, rfl⟩ := (ofBytes_eq_ok_iff hlength).mp hread
    refine ⟨hcurve, hrange, ?_⟩
    rw [toImportText_of_toBytes (toBytes_eq hcurve hrange), htext]
  · rintro ⟨hcurve, hrange, hwritten⟩
    rw [toImportText_of_toBytes (toBytes_eq hcurve hrange), Except.ok.injEq] at hwritten
    have hlength := Bytes.length_bigEndian importBytes key.scalar.value
    exact ⟨_, hlength, hwritten.symm, (ofBytes_eq_ok_iff hlength).mpr ⟨hcurve, hrange, rfl⟩⟩

end SigningKey

/-- The texts of keys and addresses are read exactly, whatever the digests are. With white space
around it, a text is read as a key on the default curve and a form exactly if it is what that key is
written as in that form, and as an address exactly if it is the text of that address. Every key on
the default curve has a text in both forms, and no text is read as both a key and an address. -/
theorem importText_address_exact [Digests] (text : String) :
    (∀ (key : SigningKey) (format : PointFormat),
      SigningKey.ofImportText text = .ok (key, format) ↔ key.curve = Curve.secp256k1 ∧
        Curve.secp256k1.inScalarRange key.scalar.value ∧
        key.toImportText format = .ok (Blank.trim text)) ∧
    (∀ (key : SigningKey) (format : PointFormat), key.curve = Curve.secp256k1 →
      Curve.secp256k1.inScalarRange key.scalar.value →
      ∃ written, key.toImportText format = .ok written) ∧
    (∀ address : Address, Address.ofText text = .ok address ↔
      Blank.trim text = address.toText) ∧
    ¬∃ read address, SigningKey.ofImportText text = .ok read ∧
      Address.ofText text = .ok address := by
  refine ⟨fun _ _ => SigningKey.ofImportText_eq_ok_iff, fun _ format hcurve hrange =>
    SigningKey.exists_toImportText hcurve hrange format, fun _ => Address.ofText_eq_ok_iff, ?_⟩
  rintro ⟨⟨key, format⟩, address, hkey, haddress⟩
  obtain ⟨body, -, htext, -⟩ := SigningKey.ofImportText_eq_ok_iff_payload.mp hkey
  -- Equal texts have equal payloads, but the versions of the two kinds differ.
  rw [Address.ofText_eq_ok_iff, htext, Address.toText] at haddress
  have hversion := (List.cons.inj (Base58Check.encode_injective haddress)).left
  exact absurd hversion (by decide)

/-- The text of the scalar one in the form with a flag, with white space around it: the key is read
with its form, and no address is read. The same key has a text in the other form as well. -/
theorem one_importText_exact :
    let text := " KwDiBf89QgGbjEhKnhXJuH7LrciVrZi3qYjgd9M7rFU73sVHnoWn\n"
    let key : SigningKey := ⟨⟨1⟩, Curve.secp256k1⟩
    SigningKey.ofImportText text = .ok (key, .compressed) ∧
      (∀ address, Address.ofText text ≠ .ok address) ∧
      ∃ written, key.toImportText .uncompressed = .ok written := by
  intro text key
  have hrange : Curve.secp256k1.inScalarRange key.scalar.value := by decide
  have hwritten : key.toImportText .compressed = .ok (Blank.trim text) := by
    decide +kernel
  obtain ⟨hread, hwrite, -, hkinds⟩ := importText_address_exact text
  have hkey := (hread key .compressed).mpr ⟨rfl, hrange, hwritten⟩
  refine ⟨hkey, ?_, hwrite key .uncompressed rfl hrange⟩
  intro address haddress
  exact hkinds ⟨_, address, hkey, haddress⟩

end EllipticSignatures
