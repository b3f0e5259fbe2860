/-
The lexer: tokens on demand.

A lexer reads one line at a time and only when every lexeme of the line before
has been taken. Lexemes wait in a queue and become tokens when they are taken,
so a faulty word costs one token while a faulty line costs the whole line. Each
error is reported once and reading goes on behind it.

`Lexer.hasNext`, `Lexer.advance` and `Lexer.next` are the ways to pull; all three
keep the state they reached when they fail.
-/
import Jack.Source
import Jack.Lexer.Lexeme

set_option autoImplicit false

namespace Jack

/-- A source that is being read. -/
structure Lexer where
  /-- The lines not yet read. -/
  lines : Source
  /-- The lexemes not yet taken from the lines read. -/
  queue : List Lexeme := []
  /-- Whether the next line begins inside a block comment. -/
  inComment : Bool := false
  /-- How many lines were read; lines that are not text do not count. -/
  linesRead : Nat := 0
  /-- The line of the current token. -/
  line : Nat := 0
  /-- The token taken last. -/
  current : Option Token := none
  deriving DecidableEq, Repr

namespace Lexer

/-- A lexer at the beginning of some bytes. -/
def ofBytes (bytes : List UInt8) : Lexer := { lines := Source.ofBytes bytes }

/-- A lexer at the beginning of a text. -/
def ofText (text : String) : Lexer := { lines := Source.ofText text }

/-- The line of the current token, or the number of lines read if no token was
taken yet. -/
def lineNumber (lexer : Lexer) : Nat :=
  if lexer.current.isSome then lexer.line else lexer.linesRead

/-- An upper bound on the number of tokens that are still to come. -/
def budget (lexer : Lexer) : Nat :=
  lexer.lines.foldl (fun total line => total + (line.length + 1)) lexer.queue.length

/-! ## Reading lines -/

/-- Puts the lexemes of one line, the first of the lines not yet read, into the
queue. -/
def readLine (lexer : Lexer) (line : Line) (rest : Source) : EStateM.Result Error Lexer Unit :=
  match line with
  | .unreadable cause => .error (.io cause) { lexer with lines := rest }
  | .text characters =>
    let number := lexer.linesRead + 1
    match Lexeme.scanLine lexer.inComment characters with
    -- a fault comes up in code or in a string, so the next line begins in code
    | .error (.invalidCharacter c) =>
      .error (.invalidCharacter number c)
        { lexer with lines := rest, linesRead := number, inComment := false }
    | .error .unterminatedString =>
      .error (.unterminatedString number)
        { lexer with lines := rest, linesRead := number, inComment := false }
    | .ok scan =>
      .ok () { lexer with
        lines := rest
        linesRead := number
        inComment := scan.inComment
        queue := lexer.queue ++ scan.lexemes.map fun text => ⟨number, text⟩ }

/-- Reads lines until the queue holds a lexeme or an error comes up. The list is
that of the lines not yet read. -/
def fill : Source → Lexer → EStateM.Result Error Lexer Bool
  | [], lexer => .ok (!lexer.queue.isEmpty) lexer
  | line :: rest, lexer =>
    if lexer.queue.isEmpty then
      match lexer.readLine line rest with
      | .ok _ lexer => fill rest lexer
      | .error error lexer => .error error lexer
    else .ok true lexer

/-! ## Pulling tokens -/

/-- Whether there is another token, or the error that stands before it. -/
def hasNext : EStateM Error Lexer Bool := fun lexer => fill lexer.lines lexer

/-- Takes the first lexeme of the queue. -/
def take : EStateM Error Lexer Token := fun lexer =>
  match lexer.queue with
  | [] => .error (.expected lexer.linesRead "additional tokens" "end of input") lexer
  | lexeme :: queue =>
    match lexeme.classify with
    | .ok token => .ok token { lexer with queue, line := lexeme.line, current := some token }
    -- the lexeme is used up; the current token stays, and its line with it
    | .error error => .error error { lexer with queue }

/-- Takes the next token. At the end of the input this is an error. -/
def advance : EStateM Error Lexer Token := do
  let _ ← hasNext
  take

/-- Takes the next token, if there is one. -/
def next : EStateM Error Lexer (Option Token) := do
  if ← hasNext then return some (← take) else return none

end Lexer

end Jack
