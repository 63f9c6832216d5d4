import Mathlib.Data.Nat.Digits.Lemmas
import EllipticSignatures.Encoding.Record
import EllipticSignatures.Proofs.Bytes
import EllipticSignatures.Proofs.Outcome

/-!
# Readers and writers of records

A reader takes its part from the front of the bytes and leaves the rest. `Record.Reads` says that it
takes exactly what a writer has written, whatever follows. The readers of words, of counted items
and of byte strings do, and readers that are put together one after the other do again
(`Record.Reads.bind`), so each field of a record is found where the previous one has ended.
`Record.ReadsBack` is the law of a kind of value: it is read back from what is written for it if its
reader admits it, and not otherwise.

A number is stored with the count of its digits in eight bytes, and `Record.Countable` says that
this count holds it. Every number in a memory with 64-bit addresses is countable, since its digits
are there. The count of any other number wraps around, and only its lowest digits are read: exactly
the countable numbers are read back (`Record.readsBack_number`).
-/

namespace EllipticSignatures.Record

/-- The reader takes exactly the bytes, whatever follows them, and gives the value. -/
def Reads {α : Type} (reader : Reader α) (bytes : Bytes) (a : α) : Prop :=
  ∀ rest, reader (bytes ++ rest) = .ok (a, rest)

/-- What is written for a value is read as that value, up to its end, iff the value is admitted. -/
def ReadsBack {α : Type} (reader : Reader α) (write : α → Bytes) (admitted : α → Prop) : Prop :=
  ∀ a rest rest', reader (write a ++ rest) = .ok (a, rest') ↔ admitted a ∧ rest' = rest

/-- The number of digits fits the eight bytes of a count. -/
def Countable (n : ℕ) : Prop := digitCount n < 256 ^ 8

instance (n : ℕ) : Decidable (Countable n) := Nat.decLt _ _

variable {α β : Type} {reader : Reader α} {bytes more : Bytes} {a : α} {b : β} {n : ℕ}

/-! ## Readers one after the other -/

/-- A reader that gives its value at once takes nothing. -/
theorem reads_pure (a : α) : Reads (pure a) [] a := fun _ => rfl

/-- The second reader starts where the first one has stopped. -/
theorem Reads.bind_apply (h : Reads reader bytes a) (next : α → Reader β) (rest : Bytes) :
    (reader >>= next) (bytes ++ rest) = next a rest := by
  show (reader (bytes ++ rest) >>= fun p => next p.1 p.2) = next a rest
  rw [h, ok_bind]

/-- Both readers together take what each of them takes. -/
theorem Reads.bind {next : α → Reader β} (h : Reads reader bytes a)
    (hnext : Reads (next a) more b) : Reads (reader >>= next) (bytes ++ more) b := by
  intro rest
  rw [List.append_assoc, h.bind_apply]
  exact hnext rest

/-- The last part of a record is followed by what takes nothing more. -/
theorem Reads.bind_last {next : α → Reader β} (h : Reads reader bytes a)
    (hnext : Reads (next a) [] b) : Reads (reader >>= next) bytes b := by
  have hboth := h.bind hnext
  rwa [List.append_nil] at hboth

/-- Two readers one after the other give a value iff the first one gives a value and the second one
gives the value from there. -/
theorem bind_apply_eq_ok {next : α → Reader β} {rest : Bytes} :
    (reader >>= next) bytes = .ok (b, rest) ↔
      ∃ a middle, reader bytes = .ok (a, middle) ∧ next a middle = .ok (b, rest) := by
  show (reader bytes >>= fun p => next p.1 p.2) = .ok (b, rest) ↔ _
  rw [bind_eq_ok, Prod.exists]

/-- A value is read from the front of bytes iff its reader gives it and leaves a rest. -/
theorem read_eq_ok_iff : read reader bytes = .ok a ↔ ∃ rest, reader bytes = .ok (a, rest) := by
  rw [read]
  rcases reader bytes with cause | ⟨b, rest⟩ <;> simp [Except.map]

theorem Reads.read_append (h : Reads reader bytes a) (rest : Bytes) :
    read reader (bytes ++ rest) = .ok a :=
  read_eq_ok_iff.mpr ⟨rest, h rest⟩

section ReadsBack

variable {write : α → Bytes} {admitted : α → Prop}

/-- Admitted values are read back if their readers take exactly what is written, and no others if
every value that is read back is admitted. -/
theorem readsBack_of_reads (h : ∀ a, admitted a → Reads reader (write a) a)
    (honly : ∀ a rest rest', reader (write a ++ rest) = .ok (a, rest') → admitted a) :
    ReadsBack reader write admitted := by
  intro a rest rest'
  constructor
  · intro hread
    have hadmitted := honly a rest rest' hread
    rw [h a hadmitted] at hread
    exact ⟨hadmitted, (Prod.mk.inj (Except.ok.inj hread)).right.symm⟩
  · rintro ⟨hadmitted, rfl⟩
    exact h a hadmitted rest'

/-- A value is read back from the front of any bytes iff it is admitted. -/
theorem ReadsBack.read_append_iff (h : ReadsBack reader write admitted) (a : α) (rest : Bytes) :
    read reader (write a ++ rest) = .ok a ↔ admitted a := by
  rw [read_eq_ok_iff]
  constructor
  · rintro ⟨rest', hread⟩
    exact ((h a rest rest').mp hread).left
  · intro hadmitted
    exact ⟨rest, (h a rest rest).mpr ⟨hadmitted, rfl⟩⟩

end ReadsBack

/-! ## Words and items -/

theorem reads_takeBytes {width : ℕ} (h : bytes.length = width) :
    Reads (takeBytes width) bytes bytes := by
  intro rest
  have henough : ¬(bytes ++ rest).length < width := by
    rw [List.length_append]
    omega
  rw [takeBytes, if_neg henough, List.take_left' h, List.drop_left' h]

/-- A word is read as the remainder that its bytes can hold. -/
theorem reads_word_mod (width n : ℕ) :
    Reads (takeWord width) (word width n) (n % 256 ^ width) := by
  rw [← Bytes.ofLittleEndian_littleEndian]
  exact (reads_takeBytes (Bytes.length_littleEndian width n)).bind_last (reads_pure _)

theorem reads_word {width : ℕ} (h : n < 256 ^ width) : Reads (takeWord width) (word width n) n := by
  have hmod := reads_word_mod width n
  rwa [Nat.mod_eq_of_lt h] at hmod

theorem reads_byteString (h : bytes.length < 256 ^ 8) :
    Reads takeByteString (byteString bytes) bytes :=
  (reads_word h).bind (reads_takeBytes rfl)

/-- Items that are written one after the other are read one after the other. -/
theorem reads_items {item : Reader α} {write : α → Bytes} {items : List α}
    (h : ∀ a ∈ items, Reads item (write a) a) :
    Reads (takeItems item items.length) (items.flatMap write) items := by
  induction items with
  | nil => exact reads_pure []
  | cons first items ih =>
    obtain ⟨hfirst, hitems⟩ := List.forall_mem_cons.mp h
    exact hfirst.bind ((ih hitems).bind_last (reads_pure _))

/-! ## Numbers -/

/-- A number has at most `k` digits iff it is below the power of the base. -/
theorem digitCount_le_iff {k : ℕ} : digitCount n ≤ k ↔ n < digitBase ^ k := by
  have hbits : digitCount n ≤ k ↔ bitLength n ≤ 32 * k := by
    rw [digitCount]
    omega
  have hbase : digitBase = 2 ^ 32 := by
    norm_num [digitBase]
  rw [hbits, bitLength_le_iff, hbase, pow_mul]

theorem lt_pow_digitCount (n : ℕ) : n < digitBase ^ digitCount n := digitCount_le_iff.mp le_rfl

theorem digitBase_pos : 0 < digitBase := by
  norm_num [digitBase]

/-- Mathlib's digits to a base write the number in the same order. -/
theorem value_digits (base n : ℕ) : Radix.value base (Nat.digits base n) = n := by
  conv_rhs => rw [← Nat.ofDigits_digits base n]
  induction Nat.digits base n with
  | nil => rfl
  | cons d ds ih => rw [Radix.value, ih, Nat.ofDigits_cons]

/-- The digits have no leading zeros. -/
theorem digits_eq (n : ℕ) : digits n = Nat.digits digitBase n := by
  have hbase : 1 < digitBase := by
    norm_num [digitBase]
  have hcount : digitCount n = (Nat.digits digitBase n).length :=
    eq_of_forall_ge_iff fun _ => by
      rw [digitCount_le_iff, Nat.digits_length_le_iff hbase]
  have hlow := Radix.low_value fun d hd => Nat.digits_lt_base (m := n) (d := d) hbase hd
  rwa [value_digits, ← hcount, ← digits] at hlow

/-- A number is stored as its digits to base 2³² after their count. -/
theorem number_eq (n : ℕ) : number n =
    count (Nat.digits digitBase n).length ++ (Nat.digits digitBase n).flatMap (word 4) := by
  rw [number, ← digits_eq, digits, Radix.length_low]

/-- Every number whose bytes fit a memory with 64-bit addresses is countable. -/
theorem countable_of_byteLength_le (h : byteLength n ≤ 2 ^ 64) : Countable n := by
  rw [byteLength] at h
  rw [Countable, digitCount]
  omega

/-- Smaller numbers have no more digits. -/
theorem Countable.mono {m : ℕ} (hn : Countable n) (h : m ≤ n) : Countable m := by
  have hle : digitCount m ≤ digitCount n :=
    digitCount_le_iff.mpr (h.trans_lt (lt_pow_digitCount n))
  exact hle.trans_lt hn

theorem reads_digits (width n : ℕ) :
    Reads (takeItems (takeWord 4) width) ((Radix.low digitBase width n).flatMap (word 4))
      (Radix.low digitBase width n) := by
  have hdigit : ∀ d ∈ Radix.low digitBase width n, Reads (takeWord 4) (word 4 d) d := by
    intro d hd
    have hbase : digitBase = 256 ^ 4 := by
      norm_num [digitBase]
    apply reads_word
    rw [← hbase]
    exact Radix.lt_of_mem_low digitBase_pos hd
  have hitems := reads_items hdigit
  rwa [Radix.length_low] at hitems

/-- As many lowest digits are read as the count tells. -/
theorem reads_lowest_digits {counted width : ℕ} (hwidth : counted % 256 ^ 8 = width) (n : ℕ) :
    Reads takeNumber (count counted ++ (Radix.low digitBase width n).flatMap (word 4))
      (n % digitBase ^ width) := by
  have hcount := reads_word_mod 8 counted
  rw [hwidth] at hcount
  rw [← Radix.value_low]
  exact hcount.bind ((reads_digits width n).bind_last (reads_pure _))

theorem reads_number (h : Countable n) : Reads takeNumber (number n) n := by
  have hdigits := reads_lowest_digits (Nat.mod_eq_of_lt h) n
  rwa [Nat.mod_eq_of_lt (lt_pow_digitCount n), ← digits, ← number] at hdigits

/-- Only a number whose digits can be counted in eight bytes is read back. -/
theorem countable_of_takeNumber {rest rest' : Bytes}
    (h : takeNumber (number n ++ rest) = .ok (n, rest')) : Countable n := by
  by_contra hcount
  -- The count has wrapped around to a smaller number of digits, and others follow these.
  obtain ⟨width, hwidth⟩ : ∃ width, digitCount n % 256 ^ 8 = width := ⟨_, rfl⟩
  have hfewer : width < digitCount n := by
    rw [← hwidth]
    exact (Nat.mod_lt _ (by norm_num)).trans_le (not_lt.mp hcount)
  obtain ⟨above, habove⟩ := Nat.exists_eq_add_of_le hfewer.le
  have hsplit : number n =
      count (digitCount n) ++ (Radix.low digitBase width n).flatMap (word 4) ++
        (Radix.low digitBase above (n / digitBase ^ width)).flatMap (word 4) := by
    rw [List.append_assoc, ← List.flatMap_append, ← Radix.low_add, ← habove, ← digits, number]
  rw [hsplit, List.append_assoc, reads_lowest_digits hwidth n, Except.ok.injEq,
    Prod.mk.injEq] at h
  -- The number read is below a power of the base that the stored number is not below.
  have hlt : n % digitBase ^ width < digitBase ^ width :=
    Nat.mod_lt _ (Nat.pow_pos digitBase_pos)
  rw [h.left] at hlt
  exact absurd (digitCount_le_iff.mpr hlt) (not_le.mpr hfewer)

/-- Exactly the countable numbers are read back. -/
theorem readsBack_number : ReadsBack takeNumber number Countable :=
  readsBack_of_reads (fun _ => reads_number) fun _ _ _ => countable_of_takeNumber

end EllipticSignatures.Record
