import Mathlib.Tactic.Common
import EllipticSignatures.Text.Base64
import EllipticSignatures.Text.Blank

/-!
# Base 64 is one to one

A byte string is read back from the characters that write it, group by group, and nothing else is
read (`decodeChars?_eq_some_iff`). A last group with padding has spare bits, and they are zero in
what is read, since the reader refuses any others.
-/

namespace EllipticSignatures.Base64

theorem value?_digit : ∀ v < 64, value? (digit v) = some v := by decide

theorem digit_ne_padding : ∀ v < 64, digit v ≠ padding := by decide

theorem isBlank_digit : ∀ v < 64, Blank.isBlank (digit v) = false := by decide

theorem isBlank_padding : Blank.isBlank padding = false := by decide

/-- The first byte of a group from its first two digits; `b` is what follows it in the second. -/
theorem first_byte (a : UInt8) {b : ℕ} (hb : b < 16) :
    UInt8.ofNat (a.toNat / 4 * 4 + (a.toNat % 4 * 16 + b) / 16) = a := by
  rw [show a.toNat / 4 * 4 + (a.toNat % 4 * 16 + b) / 16 = a.toNat by omega, UInt8.ofNat_toNat]

/-- The second byte of a group from its second and third digit. -/
theorem second_byte {a : ℕ} (b : UInt8) {c : ℕ} (hc : c < 4) :
    UInt8.ofNat ((a * 16 + b.toNat / 16) % 16 * 16 + (b.toNat % 16 * 4 + c) / 4) = b := by
  have hb := UInt8.toNat_lt b
  rw [show (a * 16 + b.toNat / 16) % 16 * 16 + (b.toNat % 16 * 4 + c) / 4 = b.toNat by omega,
    UInt8.ofNat_toNat]

/-- The third byte of a group from its last two digits. -/
theorem third_byte {b : ℕ} (c : UInt8) :
    UInt8.ofNat ((b * 4 + c.toNat / 64) % 4 * 64 + c.toNat % 64) = c := by
  have hc := UInt8.toNat_lt c
  rw [show (b * 4 + c.toNat / 64) % 4 * 64 + c.toNat % 64 = c.toNat by omega, UInt8.ofNat_toNat]

/-- A byte string is read back from the characters that write it. -/
theorem decodeChars?_encodeChars : ∀ bytes : Bytes, decodeChars? (encodeChars bytes) = some bytes
  | [] => rfl
  | [a] => by
    have ha := UInt8.toNat_lt a
    have hspare : a.toNat % 4 * 16 % 16 = 0 := by omega
    have hfirst := first_byte a (b := 0) (by omega)
    rw [Nat.add_zero] at hfirst
    rw [encodeChars, decodeChars?, if_pos rfl, if_pos rfl, decodeLast?,
      value?_digit _ (by omega), value?_digit _ (by omega)]
    simp only [Option.bind_eq_bind, Option.bind_some, Option.pure_def, if_true, hspare, hfirst]
  | [a, b] => by
    have ha := UInt8.toNat_lt a
    have hb := UInt8.toNat_lt b
    have hspare : b.toNat % 16 * 4 % 4 = 0 := by omega
    have hsecond := @second_byte (a.toNat % 4) b 0 (by omega)
    rw [Nat.add_zero] at hsecond
    rw [encodeChars, decodeChars?, if_pos rfl, if_pos rfl, decodeLast?,
      value?_digit _ (by omega), value?_digit _ (by omega), value?_digit _ (by omega)]
    simp only [Option.bind_eq_bind, Option.bind_some, Option.pure_def, if_true, hspare,
      digit_ne_padding _ (show b.toNat % 16 * 4 < 64 by omega), if_false, hsecond,
      first_byte a (show b.toNat / 16 < 16 by omega)]
  | a :: b :: c :: rest => by
    have ha := UInt8.toNat_lt a
    have hb := UInt8.toNat_lt b
    have hc := UInt8.toNat_lt c
    rw [encodeChars, decodeChars?, if_neg (digit_ne_padding _ (by omega)),
      value?_digit _ (by omega), value?_digit _ (by omega), value?_digit _ (by omega),
      value?_digit _ (by omega), decodeChars?_encodeChars rest]
    simp only [Option.bind_eq_bind, Option.bind_some, Option.pure_def, third_byte,
      first_byte a (show b.toNat / 16 < 16 by omega),
      second_byte b (show c.toNat / 64 < 4 by omega)]

/-! ## What is read is what is written -/

/-- A character with a value is the digit of that value. -/
theorem digit_of_value? {c : Char} {v : ℕ} (h : value? c = some v) : v < 64 ∧ digit v = c := by
  obtain ⟨hv, hget, -⟩ := List.idxOf?_eq_some_iff.mp h
  refine ⟨hv, ?_⟩
  rw [digit, List.getD, List.getElem?_eq_getElem hv, Option.getD_some, hget]

theorem toNat_first_byte {v₀ v₁ : ℕ} (h₀ : v₀ < 64) (h₁ : v₁ < 64) :
    (UInt8.ofNat (v₀ * 4 + v₁ / 16)).toNat = v₀ * 4 + v₁ / 16 :=
  UInt8.toNat_ofNat_of_lt' (by rw [UInt8.size]; omega)

theorem toNat_second_byte {v₁ v₂ : ℕ} (h₂ : v₂ < 64) :
    (UInt8.ofNat (v₁ % 16 * 16 + v₂ / 4)).toNat = v₁ % 16 * 16 + v₂ / 4 :=
  UInt8.toNat_ofNat_of_lt' (by rw [UInt8.size]; omega)

theorem toNat_third_byte {v₂ v₃ : ℕ} (h₃ : v₃ < 64) :
    (UInt8.ofNat (v₂ % 4 * 64 + v₃)).toNat = v₂ % 4 * 64 + v₃ :=
  UInt8.toNat_ofNat_of_lt' (by rw [UInt8.size]; omega)

/-- The three bytes of four digits are written by these digits. -/
theorem encodeChars_group {v₀ v₁ v₂ v₃ : ℕ} (h₀ : v₀ < 64) (h₁ : v₁ < 64) (h₂ : v₂ < 64)
    (h₃ : v₃ < 64) (rest : Bytes) :
    encodeChars (UInt8.ofNat (v₀ * 4 + v₁ / 16) :: UInt8.ofNat (v₁ % 16 * 16 + v₂ / 4) ::
      UInt8.ofNat (v₂ % 4 * 64 + v₃) :: rest) =
        digit v₀ :: digit v₁ :: digit v₂ :: digit v₃ :: encodeChars rest := by
  have hfirst : (v₀ * 4 + v₁ / 16) / 4 = v₀ := by omega
  have hsecond : (v₀ * 4 + v₁ / 16) % 4 * 16 + (v₁ % 16 * 16 + v₂ / 4) / 16 = v₁ := by omega
  have hthird : (v₁ % 16 * 16 + v₂ / 4) % 16 * 4 + (v₂ % 4 * 64 + v₃) / 64 = v₂ := by omega
  have hlast : (v₂ % 4 * 64 + v₃) % 64 = v₃ := by omega
  rw [encodeChars, toNat_first_byte h₀ h₁, toNat_second_byte h₂, toNat_third_byte h₃, hfirst,
    hsecond, hthird, hlast]

/-- A last group that is read is written in the same way, since its spare bits are zero. -/
theorem encodeChars_of_decodeLast? {c₀ c₁ c₂ : Char} {bytes : Bytes}
    (h : decodeLast? c₀ c₁ c₂ = some bytes) : encodeChars bytes = [c₀, c₁, c₂, padding] := by
  simp only [decodeLast?, Option.bind_eq_bind, Option.bind_eq_some_iff] at h
  obtain ⟨v₀, hv₀, v₁, hv₁, hlast⟩ := h
  obtain ⟨h₀, rfl⟩ := digit_of_value? hv₀
  obtain ⟨h₁, rfl⟩ := digit_of_value? hv₁
  by_cases hpadding : c₂ = padding
  · rw [if_pos hpadding] at hlast
    -- One byte: the low four bits of the second digit are spare.
    obtain ⟨hspare, hbytes⟩ := Option.ite_none_right_eq_some.mp hlast
    obtain rfl := Option.some.inj hbytes
    have hfirst : (v₀ * 4 + v₁ / 16) / 4 = v₀ := by omega
    have hsecond : (v₀ * 4 + v₁ / 16) % 4 * 16 = v₁ := by omega
    rw [encodeChars, toNat_first_byte h₀ h₁, hfirst, hsecond, hpadding]
  · rw [if_neg hpadding, Option.bind_eq_some_iff] at hlast
    -- Two bytes: the low two bits of the third digit are spare.
    obtain ⟨v₂, hv₂, hlast⟩ := hlast
    obtain ⟨h₂, rfl⟩ := digit_of_value? hv₂
    obtain ⟨hspare, hbytes⟩ := Option.ite_none_right_eq_some.mp hlast
    obtain rfl := Option.some.inj hbytes
    have hfirst : (v₀ * 4 + v₁ / 16) / 4 = v₀ := by omega
    have hsecond : (v₀ * 4 + v₁ / 16) % 4 * 16 + (v₁ % 16 * 16 + v₂ / 4) / 16 = v₁ := by omega
    have hthird : (v₁ % 16 * 16 + v₂ / 4) % 16 * 4 = v₂ := by omega
    rw [encodeChars, toNat_first_byte h₀ h₁, toNat_second_byte h₂, hfirst, hsecond, hthird]

/-- Characters that are read are those that write the bytes. -/
theorem encodeChars_of_decodeChars? : ∀ {chars : List Char} {bytes : Bytes},
    decodeChars? chars = some bytes → encodeChars bytes = chars
  | [], bytes, h => by
    obtain rfl := Option.some.inj h
    rfl
  | [_], _, h | [_, _], _, h | [_, _, _], _, h => by cases h
  | c₀ :: c₁ :: c₂ :: c₃ :: rest, bytes, h => by
    rw [decodeChars?] at h
    by_cases hpadding : c₃ = padding
    · rw [if_pos hpadding] at h
      -- Padding ends the text, so nothing may follow the group.
      obtain ⟨rfl, h⟩ := Option.ite_none_right_eq_some.mp h
      rw [encodeChars_of_decodeLast? h, hpadding]
    · rw [if_neg hpadding] at h
      simp only [Option.bind_eq_bind, Option.bind_eq_some_iff] at h
      obtain ⟨v₀, hv₀, v₁, hv₁, v₂, hv₂, v₃, hv₃, more, hmore, hbytes⟩ := h
      obtain rfl := Option.some.inj hbytes
      obtain ⟨h₀, rfl⟩ := digit_of_value? hv₀
      obtain ⟨h₁, rfl⟩ := digit_of_value? hv₁
      obtain ⟨h₂, rfl⟩ := digit_of_value? hv₂
      obtain ⟨h₃, rfl⟩ := digit_of_value? hv₃
      rw [encodeChars_group h₀ h₁ h₂ h₃, encodeChars_of_decodeChars? hmore]

/-- Bytes are read exactly from the characters that write them. -/
theorem decodeChars?_eq_some_iff {chars : List Char} {bytes : Bytes} :
    decodeChars? chars = some bytes ↔ chars = encodeChars bytes := by
  constructor
  · intro h
    exact (encodeChars_of_decodeChars? h).symm
  · rintro rfl
    exact decodeChars?_encodeChars bytes

/-! ## White space -/

/-- The characters that write a byte string are not white space. -/
theorem isBlank_of_mem_encodeChars : ∀ {bytes : Bytes} {c : Char}, c ∈ encodeChars bytes →
    Blank.isBlank c = false
  | [], _, h => absurd h List.not_mem_nil
  | [a], _, h => by
    have ha := UInt8.toNat_lt a
    simp only [encodeChars, List.mem_cons, List.not_mem_nil, or_false, or_self] at h
    obtain rfl | rfl | rfl := h
    · exact isBlank_digit _ (by omega)
    · exact isBlank_digit _ (by omega)
    · exact isBlank_padding
  | [a, b], _, h => by
    have ha := UInt8.toNat_lt a
    have hb := UInt8.toNat_lt b
    simp only [encodeChars, List.mem_cons, List.not_mem_nil, or_false] at h
    obtain rfl | rfl | rfl | rfl := h
    · exact isBlank_digit _ (by omega)
    · exact isBlank_digit _ (by omega)
    · exact isBlank_digit _ (by omega)
    · exact isBlank_padding
  | a :: b :: c :: rest, _, h => by
    have ha := UInt8.toNat_lt a
    have hb := UInt8.toNat_lt b
    have hc := UInt8.toNat_lt c
    simp only [encodeChars, List.mem_cons] at h
    obtain rfl | rfl | rfl | rfl | h := h
    · exact isBlank_digit _ (by omega)
    · exact isBlank_digit _ (by omega)
    · exact isBlank_digit _ (by omega)
    · exact isBlank_digit _ (by omega)
    · exact isBlank_of_mem_encodeChars h

end EllipticSignatures.Base64
