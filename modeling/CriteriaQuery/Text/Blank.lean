/-!
# Blank text

A name is blank when every one of its characters is white space in the sense of the
Unicode property `White_Space`; the empty text is blank.

## Implementation notes

The class is wider than `Char.isWhitespace`, which knows four characters only.
-/

namespace CriteriaQuery.Text

/-- The code points with the Unicode property `White_Space`, as closed ranges in ascending order. -/
def blankRanges : List (Nat × Nat) :=
  [(0x09, 0x0D), (0x20, 0x20), (0x85, 0x85), (0xA0, 0xA0), (0x1680, 0x1680),
   (0x2000, 0x200A), (0x2028, 0x2029), (0x202F, 0x202F), (0x205F, 0x205F), (0x3000, 0x3000)]

/-- A character is blank when its code point lies in one of the ranges. -/
def isBlankChar (c : Char) : Bool :=
  blankRanges.any fun range => range.1 ≤ c.toNat && c.toNat ≤ range.2

/-- A text is blank when it holds blank characters only. -/
def isBlank (s : String) : Bool := s.toList.all isBlankChar

end CriteriaQuery.Text
