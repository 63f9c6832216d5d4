import EllipticSignatures.Bytes
import EllipticSignatures.Proofs.Radix

/-!
# Bytes as digits

The number of a byte string is the one whose base-256 digits are its bytes, so a number that fits is
read back from its big-endian form, and bytes are the big-endian form of the number that they write.
The shortest form of a number is the one that has no needless zero byte in front (`ofNat_eq_iff`).
-/

namespace EllipticSignatures

namespace Block

variable {n : ℕ}

@[simp]
theorem take_bytes_append (block : Block n) (rest : Bytes) :
    (block.bytes ++ rest).take n = block.bytes :=
  List.take_left' block.length_eq

@[simp]
theorem drop_bytes_append (block : Block n) (rest : Bytes) :
    (block.bytes ++ rest).drop n = rest :=
  List.drop_left' block.length_eq

end Block

namespace Bytes

theorem toNat_eq_ofDigits (bytes : Bytes) :
    toNat bytes = Radix.ofDigits 256 (bytes.map UInt8.toNat) := by
  rw [toNat, Radix.ofDigits, List.foldl_map]

/-- Digits below 256 are not changed by the conversion to bytes and back. -/
theorem map_toNat_map_ofNat {ds : List ℕ} (h : ∀ d ∈ ds, d < 256) :
    (ds.map UInt8.ofNat).map UInt8.toNat = ds := by
  have hdigit : ∀ d ∈ ds, (UInt8.toNat ∘ UInt8.ofNat) d = id d := by
    intro d hd
    simp [Nat.mod_eq_of_lt (h d hd)]
  rw [List.map_map, List.map_congr_left hdigit, List.map_id]

/-- Bytes are not changed by the conversion to digits and back. -/
theorem map_ofNat_map_toNat (bytes : Bytes) : (bytes.map UInt8.toNat).map UInt8.ofNat = bytes := by
  have hbyte : UInt8.ofNat ∘ UInt8.toNat = id := funext fun b => UInt8.ofNat_toNat
  rw [List.map_map, hbyte, List.map_id]

theorem lt_of_mem_map_toNat {bytes : Bytes} {d : ℕ} (h : d ∈ bytes.map UInt8.toNat) : d < 256 := by
  obtain ⟨b, -, rfl⟩ := List.mem_map.mp h
  exact b.toNat_lt

/-- The bytes of a number are its digits. -/
theorem map_toNat_bigEndian (width n : ℕ) :
    (bigEndian width n).map UInt8.toNat = (Radix.low 256 width n).reverse := by
  rw [bigEndian, littleEndian, List.map_reverse, map_toNat_map_ofNat]
  exact fun d => Radix.lt_of_mem_low (by norm_num)

/-- The remainder that the bytes can hold is read back from the little-endian form. -/
theorem ofLittleEndian_littleEndian (width n : ℕ) :
    ofLittleEndian (littleEndian width n) = n % 256 ^ width := by
  rw [ofLittleEndian, littleEndian, map_toNat_map_ofNat, Radix.value_low]
  exact fun d => Radix.lt_of_mem_low (by norm_num)

theorem ofLittleEndian_lt (bytes : Bytes) : ofLittleEndian bytes < 256 ^ bytes.length := by
  have hdigits : ∀ d ∈ bytes.map UInt8.toNat, d < 256 := fun d => lt_of_mem_map_toNat
  have hlt := Radix.value_lt (by norm_num) hdigits
  rwa [List.length_map] at hlt

theorem toNat_bigEndian (width n : ℕ) : toNat (bigEndian width n) = n % 256 ^ width := by
  rw [toNat_eq_ofDigits, map_toNat_bigEndian, Radix.ofDigits_eq_value, List.reverse_reverse,
    Radix.value_low]

/-- A written number has at most `w` bytes iff there is a byte for it and it fits. -/
theorem width_le_iff {n w : ℕ} : width n ≤ w ↔ 1 ≤ w ∧ n < 256 ^ w := by
  rw [width, max_le_iff, byteLength_le_iff]

/-- A number fits the bytes of any number above it. -/
theorem width_le_of_lt {k n : ℕ} (h : k < n) : width k ≤ byteLength n := by
  refine width_le_iff.mpr ⟨?_, h.trans (lt_pow_byteLength n)⟩
  -- A positive number has at least one byte.
  by_contra hzero
  have := byteLength_le_iff.mp (Nat.le_of_lt_succ (not_le.mp hzero))
  omega

/-- A number that fits is read back. -/
theorem toNat_bigEndian_of_width_le {n w : ℕ} (h : width n ≤ w) : toNat (bigEndian w n) = n := by
  rw [toNat_bigEndian, Nat.mod_eq_of_lt (width_le_iff.mp h).right]

/-- Bytes are the big-endian form, of their own length, of the number that they write. -/
theorem bigEndian_toNat (bytes : Bytes) : bigEndian bytes.length (toNat bytes) = bytes := by
  have hdigits : ∀ d ∈ (bytes.map UInt8.toNat).reverse, d < 256 := by
    intro d hd
    exact lt_of_mem_map_toNat (List.mem_reverse.mp hd)
  have hlow := Radix.low_value hdigits
  rw [List.length_reverse, List.length_map] at hlow
  rw [bigEndian, littleEndian, toNat_eq_ofDigits, Radix.ofDigits_eq_value, hlow, List.map_reverse,
    List.reverse_reverse, map_ofNat_map_toNat]

theorem toNat_lt (bytes : Bytes) : toNat bytes < 256 ^ bytes.length := by
  have hmod := toNat_bigEndian bytes.length (toNat bytes)
  rw [bigEndian_toNat] at hmod
  rw [hmod]
  exact Nat.mod_lt _ (Nat.pow_pos (by norm_num))

theorem toNat_cons (top : UInt8) (rest : Bytes) :
    toNat (top :: rest) = top.toNat * 256 ^ rest.length + toNat rest := by
  rw [toNat_eq_ofDigits, List.map_cons, Radix.ofDigits_cons, List.length_map, ← toNat_eq_ofDigits]

theorem toNat_cons_zero (rest : Bytes) : toNat (0 :: rest) = toNat rest := by
  rw [toNat_cons, UInt8.toNat_zero, zero_mul, zero_add]

/-! ## Shortest forms -/

/-- There is a byte, and the first byte is zero only if it is the only one. -/
def Shortest : Bytes → Prop
  | [] => False
  | top :: rest => top = 0 → rest = []

/-- A number takes as many bytes as any form of it without a needless zero byte. -/
theorem Shortest.width_toNat {bytes : Bytes} (h : bytes.Shortest) :
    width (toNat bytes) = bytes.length := by
  cases bytes with
  | nil => exact absurd h id
  | cons top rest =>
    apply le_antisymm
    · exact width_le_iff.mpr ⟨by simp, toNat_lt _⟩
    · by_contra hshort
      obtain ⟨hrest, hlt⟩ := width_le_iff.mp (Nat.le_of_lt_succ (not_le.mp hshort))
      -- Other bytes follow, so the first one is not zero and the number not below its power.
      have htop : top.toNat ≠ 0 := by
        intro hzero
        have hnil := h (UInt8.toNat_inj.mp hzero)
        simp [hnil] at hrest
      have hpow : 256 ^ rest.length ≤ top.toNat * 256 ^ rest.length :=
        Nat.le_mul_of_pos_left _ (Nat.pos_of_ne_zero htop)
      rw [toNat_cons] at hlt
      omega

theorem toNat_ofNat (n : ℕ) : toNat (ofNat n) = n := toNat_bigEndian_of_width_le le_rfl

theorem length_ofNat (n : ℕ) : (ofNat n).length = width n := length_bigEndian _ _

theorem shortest_ofNat (n : ℕ) : (ofNat n).Shortest := by
  have hlength := length_ofNat n
  have hnumber := toNat_ofNat n
  cases hbytes : ofNat n with
  | nil =>
    rw [hbytes, width, List.length_nil] at hlength
    omega
  | cons top rest =>
    rintro rfl
    rw [hbytes, toNat_cons_zero] at hnumber
    rw [hbytes, List.length_cons] at hlength
    by_contra hrest
    -- Without the zero in front the other bytes would do.
    have hfits : width n ≤ rest.length := by
      refine width_le_iff.mpr ⟨List.length_pos_iff.mpr hrest, ?_⟩
      rw [← hnumber]
      exact toNat_lt rest
    omega

/-- The shortest form of a number is its only form without a needless zero byte. -/
theorem ofNat_eq_iff {n : ℕ} {bytes : Bytes} :
    ofNat n = bytes ↔ bytes.Shortest ∧ toNat bytes = n := by
  constructor
  · rintro rfl
    exact ⟨shortest_ofNat n, toNat_ofNat n⟩
  · rintro ⟨hshortest, rfl⟩
    rw [ofNat, hshortest.width_toNat, bigEndian_toNat]

/-- Bytes have no needless zero in front iff they are as many as their number takes. -/
theorem shortest_iff {bytes : Bytes} : bytes.Shortest ↔ width (toNat bytes) = bytes.length := by
  refine ⟨Shortest.width_toNat, fun hwidth => ?_⟩
  have hform : ofNat (toNat bytes) = bytes := by
    rw [ofNat, hwidth, bigEndian_toNat]
  exact (ofNat_eq_iff.mp hform).left

theorem width_of_pos {n : ℕ} (h : 0 < n) : width n = byteLength n := by
  refine max_eq_right (Nat.one_le_iff_ne_zero.mpr fun hzero => ?_)
  have hlt := byteLength_le_iff.mp hzero.le
  omega

theorem Shortest.byteLength_toNat {bytes : Bytes} (h : bytes.Shortest) (hpos : 0 < toNat bytes) :
    byteLength (toNat bytes) = bytes.length := by
  rw [← width_of_pos hpos, h.width_toNat]

end Bytes

/-- A block is determined by the number that it writes. -/
theorem Block.toNat_injective {n : ℕ} : Function.Injective (Block.toNat (n := n)) := by
  rintro ⟨first, hfirst⟩ ⟨second, hsecond⟩ h
  have hbytes : first = second := by
    rw [← Bytes.bigEndian_toNat first, ← Bytes.bigEndian_toNat second, hfirst, hsecond]
    exact congrArg (Bytes.bigEndian n) h
  subst hbytes
  rfl

end EllipticSignatures
