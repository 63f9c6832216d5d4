import EllipticSignatures.Key.Address
import EllipticSignatures.Proofs.Point.Sec1
import EllipticSignatures.Proofs.Text.Base58Check

/-!
# Addresses of keys

Every public key other than the identity has an address in both forms, and an address is read
exactly from its text, with or without white space around it (`Address.ofText_eq_ok_iff`).
-/

namespace EllipticSignatures

namespace Address

/-- The payload of an address is the version and the digest. -/
theorem ofPayload?_eq_some_iff {payload : Bytes} {address : Address} :
    ofPayload? payload = some address ↔ payload = version :: address.hash.bytes := by
  constructor
  · intro h
    cases payload with
    | nil => simp [ofPayload?] at h
    | cons first hash =>
      obtain ⟨rfl, hmap⟩ := Option.ite_none_right_eq_some.mp h
      obtain ⟨block, hblock, rfl⟩ := Option.map_eq_some_iff.mp hmap
      rw [Block.ofBytes?_eq_some_iff.mp hblock]
  · rintro rfl
    rw [ofPayload?, if_pos rfl, Block.ofBytes?_bytes, Option.map_some]

/-- An address is read exactly from its text with white space around it. -/
theorem ofText_eq_ok_iff [Digests] {text : String} {address : Address} :
    ofText text = .ok address ↔ Blank.trim text = address.toText := by
  have hparse : ofText text = .ok address ↔
      (Base58Check.decode? (Blank.trim text)).bind ofPayload? = some address := by
    rw [ofText]
    cases (Base58Check.decode? (Blank.trim text)).bind ofPayload? <;> simp
  simp only [hparse, Option.bind_eq_some_iff, Base58Check.decode?_eq_some_iff,
    ofPayload?_eq_some_iff, toText]
  constructor
  · rintro ⟨_, htext, rfl⟩
    exact htext
  · intro htext
    exact ⟨_, htext, rfl⟩

/-- An address is read back from its text. -/
theorem ofText_toText [Digests] (address : Address) : ofText address.toText = .ok address := by
  rw [ofText_eq_ok_iff, toText, Base58Check.trim_encode]

end Address

namespace VerifyingKey

theorem address_eq_ok_iff [Digests] {key : VerifyingKey} {format : PointFormat}
    {address : Address} :
    key.address format = .ok address ↔
      ∃ encoded, key.toSec1 format = .ok encoded ∧ Address.ofSec1 encoded = address := by
  simp [VerifyingKey.address, bind_eq_ok]

/-- A public key other than the identity has an address in both forms. -/
theorem exists_address [Digests] {c : Curve} [Fact c.p.Prime] {T : c.Point} (hT : T ≠ 0)
    (format : PointFormat) :
    ∃ address, (⟨Affine.ofPoint T, c⟩ : VerifyingKey).address format = .ok address := by
  obtain ⟨encoded, h⟩ := exists_toSec1 (Affine.inField_ofPoint T)
    (Affine.ofPoint_eq_infinity_iff.not.mpr hT) format
  exact ⟨Address.ofSec1 encoded, address_eq_ok_iff.mpr ⟨encoded, h, rfl⟩⟩

end VerifyingKey

end EllipticSignatures
