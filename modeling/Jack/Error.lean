/-
Everything that can go wrong, as causes.

An `Error` says what happened and where, and carries the pieces its wording
needs. The wording itself is in one place, `Error.detail`; `Error.message` puts
the name of the error's category in front of it. Failures of reading and writing
are an `IoCause` of their own, because files, sinks and writers raise them long
before anything is known about tokens.
-/

set_option autoImplicit false

namespace Jack

/-! ## Failures of input and output -/

/-- Why reading or writing failed. -/
inductive IoCause where
  /-- A line of the source is not well-formed UTF-8. -/
  | notText
  /-- A path, or a directory on the way to it, does not exist. -/
  | notFound
  /-- A path goes through something that is not a directory. -/
  | notDirectory
  /-- A directory stands where a file is needed. -/
  | isDirectory
  /-- A directory does not let names be made in it. -/
  | permissionDenied
  /-- A path, or a name in it, is longer than a disk allows. -/
  | nameTooLong
  /-- A path holds the character that ends texts for the machine. -/
  | nulInPath
  /-- A sink took only a part of what was written to it. -/
  | sinkFull
  /-- A sink could not be flushed. -/
  | flushFailed
  /-- A command was written after the writer had been closed. -/
  | writerClosed
  /-- The path of a source does not have the extension of a source. -/
  | notSource (path : String)
  /-- A path has no file name to derive an output name from. -/
  | invalidFileName (path : String)
  /-- Any other failure that the surroundings report, in their words. -/
  | other (text : String)
  deriving DecidableEq, Repr

/-- The wording of a failure of input or output. -/
def IoCause.detail : IoCause → String
  | notText => "stream did not contain valid UTF-8"
  | notFound => "No such file or directory (os error 2)"
  | notDirectory => "Not a directory (os error 20)"
  | isDirectory => "Is a directory (os error 21)"
  | permissionDenied => "Permission denied (os error 13)"
  | nameTooLong => "File name too long (os error 36)"
  | nulInPath => "file name contained an unexpected NUL byte"
  | sinkFull => "failed to write whole buffer"
  | flushFailed => "flush failed"
  | writerClosed => "write to a closed VM writer"
  | notSource path => "`" ++ path ++ "` is not a .jack file"
  | invalidFileName path => "invalid file name `" ++ path ++ "`"
  | other text => text

/-! ## Errors -/

/-- The four families an error belongs to. -/
inductive ErrorCategory where
  | lexical
  | grammatical
  | tokenKind
  | io
  deriving DecidableEq, Repr

/-- The words that open the message of every error of a category. -/
def ErrorCategory.label : ErrorCategory → String
  | lexical => "lexer error: "
  | grammatical => "syntax error: "
  | tokenKind => "token error: "
  | io => "io error: "

/-- What went wrong, with the number of the line it is reported at. -/
inductive Error where
  /-- A character that no token contains. -/
  | invalidCharacter (line : Nat) (character : Char)
  /-- A word that is neither a keyword, an integer nor an identifier. -/
  | invalidToken (line : Nat) (lexeme : String)
  /-- An integer constant above the largest one of the target machine. -/
  | integerOutOfRange (line : Nat) (lexeme : String)
  /-- A string constant that its line does not close. -/
  | unterminatedString (line : Nat)
  /-- Something else than the grammar asks for at this place. -/
  | expected (line : Nat) (wanted found : String)
  /-- A call whose argument count does not fit a command. -/
  | tooManyArguments (line : Nat) (callee : String)
  /-- A name that its tier of the symbol table already holds. The line is
  known only to those who read the declaration from a source. -/
  | duplicateName (line : Option Nat) (name : String)
  /-- A variable that was never declared. -/
  | undeclaredName (line : Nat) (name : String)
  /-- A token asked for a value that its kind does not have. -/
  | wrongTokenKind (wanted found : String)
  /-- Reading or writing failed. -/
  | io (cause : IoCause)
  deriving DecidableEq, Repr

namespace Error

/-- The family of an error. -/
def category : Error → ErrorCategory
  | invalidCharacter .. | invalidToken .. | integerOutOfRange .. | unterminatedString .. => .lexical
  | expected .. | tooManyArguments .. | duplicateName .. | undeclaredName .. => .grammatical
  | wrongTokenKind .. => .tokenKind
  | io _ => .io

/-- Puts the number of a line in front of a text. -/
def atLine (line : Nat) (text : String) : String :=
  "line " ++ toString line ++ ": " ++ text

/-- The wording of an error, without its category. -/
def detail : Error → String
  | invalidCharacter line c => atLine line ("invalid character `" ++ c.toString ++ "`")
  | invalidToken line lexeme => atLine line ("invalid token `" ++ lexeme ++ "`")
  | integerOutOfRange line lexeme =>
    atLine line ("integer constant `" ++ lexeme ++ "` out of range")
  | unterminatedString line => atLine line "unterminated string constant"
  | expected line wanted found =>
    atLine line ("Expected `" ++ wanted ++ "`, got `" ++ found ++ "` instead.")
  | tooManyArguments line callee =>
    atLine line ("too many arguments in call to `" ++ callee ++ "`")
  | duplicateName none name => "duplicate declaration: `" ++ name ++ "`"
  | duplicateName (some line) name => atLine line ("duplicate declaration: `" ++ name ++ "`")
  | undeclaredName line name => atLine line ("undeclared variable `" ++ name ++ "`")
  | wrongTokenKind wanted found => "current token is not " ++ wanted ++ ": `" ++ found ++ "`"
  | io cause => cause.detail

/-- The full text of an error as a user reads it. -/
def message (error : Error) : String := error.category.label ++ error.detail

end Error

end Jack
