/-
The characters of words. A word is what stands between two separators: a
keyword, an identifier or an integer. It begins with a letter, an underscore or
a digit and goes on with any of these.
-/
import Jack.Text.Alphabetic
import Jack.Text.Numeric

set_option autoImplicit false

namespace Jack.Text

/-- A letter or the character of a number. -/
def isAlphanumeric (c : Char) : Bool := isAlphabetic c || isNumeric c

/-- Whether a character may stand in a word. -/
def isWordPart (c : Char) : Bool := isAlphanumeric c || c == '_'

/-- Whether an identifier may begin with a character. -/
def isNameStart (c : Char) : Bool := isAlphabetic c || c == '_'

/-- Whether a character is one of the ten digits of an integer constant. -/
def isDigit (c : Char) : Bool := '0' ≤ c && c ≤ '9'

end Jack.Text
