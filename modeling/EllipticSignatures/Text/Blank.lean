/-!
# White space at the ends of a text

Texts that people copy are read without the white space around them. `isBlank` is the Unicode
property `White_Space`, which has 25 code points.
-/

namespace EllipticSignatures.Blank

/-- The ranges of code points with the property `White_Space`. -/
def ranges : List (Nat × Nat) :=
  [(0x09, 0x0d), (0x20, 0x20), (0x85, 0x85), (0xa0, 0xa0), (0x1680, 0x1680), (0x2000, 0x200a),
    (0x2028, 0x2029), (0x202f, 0x202f), (0x205f, 0x205f), (0x3000, 0x3000)]

/-- The character is white space. -/
def isBlank (c : Char) : Bool := ranges.any fun (first, last) => first ≤ c.toNat && c.toNat ≤ last

/-- The characters without white space at both ends. -/
def trimChars (chars : List Char) : List Char :=
  ((chars.dropWhile isBlank).reverse.dropWhile isBlank).reverse

/-- The text without white space at both ends. -/
def trim (text : String) : String := String.ofList (trimChars text.toList)

/-- A space is white space. -/
@[simp]
theorem isBlank_space : isBlank ' ' = true := by decide

theorem dropWhile_isBlank {chars : List Char} (h : ∀ c ∈ chars, isBlank c = false) :
    chars.dropWhile isBlank = chars := by
  cases chars with
  | nil => rfl
  | cons c rest => rw [List.dropWhile_cons_of_neg (by simp [h c List.mem_cons_self])]

theorem trimChars_eq_self {chars : List Char} (h : ∀ c ∈ chars, isBlank c = false) :
    trimChars chars = chars := by
  rw [trimChars, dropWhile_isBlank h, dropWhile_isBlank, List.reverse_reverse]
  intro c hc
  exact h c (List.mem_reverse.mp hc)

/-- A text of characters that are not white space is not trimmed. -/
theorem trim_ofList {chars : List Char} (h : ∀ c ∈ chars, isBlank c = false) :
    trim (String.ofList chars) = String.ofList chars := by
  rw [trim, String.toList_ofList, trimChars_eq_self h]

end EllipticSignatures.Blank
