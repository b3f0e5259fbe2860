/-
The characters that separate words: the property `White_Space` of the Unicode
character database.
-/
import Jack.Text.Ranges

set_option autoImplicit false

namespace Jack.Text

/-- The code points with the property `White_Space`. -/
def whiteSpaceRanges : Ranges :=
  [(0x9, 0xD), (0x20, 0x20), (0x85, 0x85), (0xA0, 0xA0), (0x1680, 0x1680), (0x2000, 0x200A),
    (0x2028, 0x2029), (0x202F, 0x202F), (0x205F, 0x205F), (0x3000, 0x3000)]

theorem whiteSpaceRanges_ascending : whiteSpaceRanges.ascendingFrom 0 = true := by decide +kernel

/-- Whether a character separates words. -/
def isWhiteSpace (c : Char) : Bool := whiteSpaceRanges.contains c.toNat

end Jack.Text
