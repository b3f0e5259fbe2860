/-
Token dumps: the tokens of a source as marked-up text, one element to a line.

The value of a token stands between tags that name its kind, with a blank on
either side. Four characters have a meaning in marked-up text and are written as
entities. A dump ends where the first error comes up: what was written before it
stays, and the closing tag is missing.
-/
import Jack.Lexer.Items
import Jack.Vm.Sink

set_option autoImplicit false

namespace Jack.TokenDump

/-- A character as marked-up text shows it. -/
def escapeChar : Char → List Char
  | '<' => ['&', 'l', 't', ';']
  | '>' => ['&', 'g', 't', ';']
  | '&' => ['&', 'a', 'm', 'p', ';']
  | '"' => ['&', 'q', 'u', 'o', 't', ';']
  | c => [c]

/-- A text as marked-up text shows it. -/
def escape (text : String) : String := String.ofList (text.toList.flatMap escapeChar)

/-- The line of a token. -/
def element (token : Token) : String :=
  let kind := token.kind.name
  "<" ++ kind ++ "> " ++ escape token.value ++ " </" ++ kind ++ ">\n"

/-- Writes the lines of tokens up to the first error. -/
def writeItems : List Lexer.Item → EStateM Error Vm.Sink Unit
  | [] => pure ()
  | ⟨.error error, _⟩ :: _ => throw error
  | ⟨.ok token, _⟩ :: rest => do
    Vm.Sink.write (element token)
    writeItems rest

/-- Writes every token that a lexer still has. -/
def write (lexer : Lexer) : EStateM Error Vm.Sink Unit := do
  Vm.Sink.write "<tokens>\n"
  writeItems lexer.drain.1.toList
  Vm.Sink.write "</tokens>\n"

/-- Dumps the tokens of a source into a sink without limits. -/
def ofSource (source : Source) : Except Error Unit × Vm.Sink :=
  match write { lines := source } {} with
  | .ok _ sink => (.ok (), sink)
  | .error error sink => (.error error, sink)

end Jack.TokenDump
