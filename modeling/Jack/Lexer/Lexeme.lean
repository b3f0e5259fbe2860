/-
Lexemes: the pieces of one line before anything is known about their kind.

`scanLine` walks a line once. It is in one of three modes: in code, inside a
string constant, or inside a block comment; a block comment is the only one that
outlives the line. A string constant becomes a lexeme that begins with a quote
and does not hold the closing one, so the first character tells it apart from
everything else. `classify` turns a lexeme into a token.
-/
import Jack.Token
import Jack.Text.WhiteSpace
import Jack.Text.Word

set_option autoImplicit false

namespace Jack

/-- A piece of a line, with the number of the line. -/
structure Lexeme where
  line : Nat
  text : List Char
  deriving DecidableEq, Repr

namespace Lexeme

/-! ## Scanning a line -/

/-- Where a scan stands between two characters. -/
inductive Mode where
  /-- In code, with the characters of the word begun, last one first. -/
  | code (word : List Char)
  /-- Inside a string constant, with its characters so far, last one first. -/
  | string (content : List Char)
  /-- Inside a block comment. -/
  | comment
  deriving DecidableEq, Repr

/-- Why a line has no lexemes. -/
inductive Fault where
  | invalidCharacter (character : Char)
  | unterminatedString
  deriving DecidableEq, Repr

/-- The lexemes of a line, and whether it ends inside a block comment. -/
structure Scan where
  lexemes : List (List Char)
  inComment : Bool
  deriving DecidableEq, Repr

/-- Adds the word begun, if there is one, to the lexemes found. -/
def flush (word : List Char) (found : List (List Char)) : List (List Char) :=
  if word.isEmpty then found else word.reverse :: found

/-- Scans the rest of a line. `found` holds the lexemes so far, last one first.
A fault loses the lexemes of the whole line. -/
def scanFrom : Mode → List (List Char) → List Char → Except Fault Scan
  | .comment, found, [] => .ok ⟨found.reverse, true⟩
  -- the star that opens a comment cannot close it, since it is behind us here
  | .comment, found, '*' :: '/' :: rest => scanFrom (.code []) found rest
  | .comment, found, _ :: rest => scanFrom .comment found rest
  | .string _, _, [] => .error .unterminatedString
  | .string content, found, c :: rest =>
    if c = '"' then scanFrom (.code []) (('"' :: content.reverse) :: found) rest
    else scanFrom (.string (c :: content)) found rest
  | .code word, found, [] => .ok ⟨(flush word found).reverse, false⟩
  -- the slashes come before the other characters of code: a single one is a delimiter
  | .code word, found, '/' :: '/' :: _ => .ok ⟨(flush word found).reverse, false⟩
  | .code word, found, '/' :: '*' :: rest => scanFrom .comment (flush word found) rest
  | .code word, found, c :: rest =>
    if c = '"' then scanFrom (.string []) (flush word found) rest
    else if Text.isWhiteSpace c then scanFrom (.code []) (flush word found) rest
    else if isDelimiter c then scanFrom (.code []) ([c] :: flush word found) rest
    else if Text.isWordPart c then scanFrom (.code (c :: word)) found rest
    else .error (.invalidCharacter c)

/-- Scans a line that begins in code or inside a block comment. -/
def scanLine (inComment : Bool) (line : List Char) : Except Fault Scan :=
  scanFrom (if inComment then .comment else .code []) [] line

/-! ## From lexemes to tokens -/

/-- Goes on reading digits after the number `value`, as long as it does not
exceed `limit`. Leading zeros do not count. -/
def readDecimal (limit value : Nat) : List Char → Option Nat
  | [] => if value ≤ limit then some value else none
  | digit :: rest =>
    if value ≤ limit then readDecimal limit (10 * value + (digit.toNat - '0'.toNat)) rest
    else none

/-- The token that a lexeme stands for. -/
def classify (lexeme : Lexeme) : Except Error Token :=
  match lexeme.text with
  | [] => .error (.invalidToken lexeme.line "")
  | first :: rest =>
    let word := String.ofList lexeme.text
    -- the quote comes first, so a string constant that spells a keyword stays one
    if first = '"' then .ok (.string (String.ofList rest))
    else if rest.isEmpty && isDelimiter first then .ok (.symbol first)
    else match Keyword.ofText? word with
      | some keyword => .ok (.keyword keyword)
      | none =>
        -- a word that begins with a digit and goes on otherwise is no name either
        if lexeme.text.all Text.isDigit then
          match readDecimal Token.maxInteger 0 lexeme.text with
          | some value => .ok (.integer value)
          | none => .error (.integerOutOfRange lexeme.line word)
        else if Text.isNameStart first then .ok (.identifier word)
        else .error (.invalidToken lexeme.line word)

end Lexeme

end Jack
