/-
A source as the lexer meets it: a list of lines.

Bytes are cut into lines at line feeds only. A line feed ends a line and is not
part of it; what follows the last one is a line of its own if it is not empty.
Carriage returns at the end of a line are dropped, so both common line endings
read alike. A line that is not well-formed UTF-8 stays in the list as a failure:
reading goes on behind it.
-/
import Jack.Error

set_option autoImplicit false

namespace Jack

/-- A line of a source. -/
inductive Line where
  /-- A line that can be read. -/
  | text (characters : List Char)
  /-- A line that cannot be read, and why. -/
  | unreadable (cause : IoCause)
  deriving DecidableEq, Repr

/-- How many characters can be read of a line. -/
def Line.length : Line → Nat
  | text characters => characters.length
  | unreadable _ => 0

/-- The lines of a source in order. -/
abbrev Source := List Line

namespace Source

/-- The byte that ends a line. -/
def lineFeed : UInt8 := 10

/-- Cuts bytes into lines. `line` holds the bytes of the line being read and
`lines` the lines before it, both last one first. -/
def cutLines (line : List UInt8) (lines : List (List UInt8)) : List UInt8 → List (List UInt8)
  -- a source that ends in a line feed has no empty line behind it
  | [] => if line.isEmpty then lines.reverse else (line.reverse :: lines).reverse
  | byte :: rest =>
    if byte = lineFeed then cutLines [] (line.reverse :: lines) rest
    else cutLines (byte :: line) lines rest

/-- The characters of a line without the carriage returns at its end. -/
def trimReturns (characters : List Char) : List Char :=
  (characters.reverse.dropWhile (· == '\r')).reverse

/-- Reads the bytes of one line. -/
def decodeLine (bytes : List UInt8) : Line :=
  match String.fromUTF8? bytes.toByteArray with
  | some text => .text (trimReturns text.toList)
  | none => .unreadable .notText

/-- The lines of a source given as bytes. -/
def ofBytes (bytes : List UInt8) : Source := (cutLines [] [] bytes).map decodeLine

/-- The lines of a source given as text. -/
def ofText (text : String) : Source := ofBytes text.toUTF8.data.toList

/-- A source that cannot be read at all. -/
def unreadable (cause : IoCause) : Source := [.unreadable cause]

end Source

end Jack
