/-!
# Blank characters

The characters with the Unicode property White_Space, and the text that is left when they are
taken off both ends.
-/

namespace StencilPlan.Text

/-- The ranges of the property, first and last character. -/
def blankRanges : List (Nat × Nat) :=
  [(0x09, 0x0D), (0x20, 0x20), (0x85, 0x85), (0xA0, 0xA0), (0x1680, 0x1680), (0x2000, 0x200A),
   (0x2028, 0x2029), (0x202F, 0x202F), (0x205F, 0x205F), (0x3000, 0x3000)]

/-- Whether a character is blank. -/
def isBlank (c : Char) : Bool := blankRanges.any fun r => r.1 ≤ c.toNat ∧ c.toNat ≤ r.2

/-- A text without the blanks at its ends. -/
def trim (s : String) : List Char :=
  ((s.toList.dropWhile isBlank).reverse.dropWhile isBlank).reverse

end StencilPlan.Text
