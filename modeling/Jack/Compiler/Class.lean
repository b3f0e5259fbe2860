/-
Declarations, subroutines and the class as a whole.

A list of declared names is read to its end before the first of them is declared.
The frame of a subroutine is announced when its last local has been read, since
the command that opens it counts them.

`compile` compiles the one class of a source. It begins by bounding what is
left to read; no rule can go deeper or repeat more often than that.
-/
import Jack.Compiler.Statement

set_option autoImplicit false

namespace Jack

namespace Compiler

open Actions (look still move)

variable {σ : Type} [Actions σ]

/-! ## Declarations -/

/-- `type name, name, …;` -/
def declaration (budget : Nat) (kind : VarKind) : ActionM σ Unit := do
  let type ← type
  let names ← commaList name budget
  still (defineAll type kind names)
  expectSymbol ';'

/-- The kind of class variable that a token begins the declaration of. -/
def classVarKind? : Token → Option VarKind
  | .keyword .staticKw => some .static
  | .keyword .fieldKw => some .field
  | _ => none

/-- The kind of variable that a token begins the declaration of in a body. -/
def bodyVarKind? : Token → Option VarKind
  | .keyword .varKw => some .localVar
  | _ => none

/-- A declaration behind the keyword for its kind. -/
def varDeclaration (budget : Nat) (kind : VarKind) : ActionM σ Unit := do
  move
  declaration budget kind

/-! ## Subroutines -/

/-- The three kinds of subroutine. -/
inductive SubroutineKind where
  | constructor
  | function
  | method
  deriving DecidableEq, Repr

/-- The keyword of a kind of subroutine. -/
def SubroutineKind.keyword : SubroutineKind → Keyword
  | constructor => .constructorKw
  | function => .functionKw
  | method => .methodKw

/-- The kind of subroutine that a token begins. -/
def subroutineKind? : Token → Option SubroutineKind
  | .keyword .constructorKw => some .constructor
  | .keyword .functionKw => some .function
  | .keyword .methodKw => some .method
  | _ => none

/-- The parameters of a subroutine, possibly none. -/
def parameters (budget : Nat) : ActionM σ Unit := do
  if ← atSymbol ')' then return
  -- a repeated name is an error only behind the whole list
  let found ← commaList (do return (← type, ← name)) budget
  still (defineParameters found)

/-- The commands that prepare the object a subroutine works on: a constructor
makes room for `fields` words, a method takes its first argument. -/
def prologue (fields : Nat) : SubroutineKind → List Vm.Command
  | .constructor => [.push .constant fields, .call "Memory.alloc" 1, .pop .pointer 0]
  | .function => []
  | .method => [.push .argument 0, .pop .pointer 0]

/-- `{declarations statements}` -/
def subroutineBody (budget : Nat) (kind : SubroutineKind) : ActionM σ Unit := do
  expectSymbol '{'
  many bodyVarKind? (varDeclaration budget) budget
  -- all locals are known here, and nothing of the body has been emitted
  let fullName := (← look).className ++ "." ++ (← look).subroutineName
  let symbols := (← look).symbols
  still (note (.compilingSubroutine kind.keyword.text fullName (symbols.count .localVar)))
  still (note (.symbolsOf fullName symbols))
  still (emit (.function fullName (symbols.count .localVar)))
  still (emitAll (prologue (symbols.count .field) kind))
  statements budget
  expectSymbol '}'

/-- The type that a subroutine returns: `void` or a type. -/
def returnType : ActionM σ Unit := do
  if ← atKeyword .voidKw then move
  else
    let _ ← type

/-- `keyword type name(parameters) body`. The first argument of a method is the
object it is called on. -/
def subroutine (budget : Nat) (kind : SubroutineKind) : ActionM σ Unit := do
  move
  still startSubroutine
  returnType
  let subroutineName ← name
  still (nameSubroutine subroutineName)
  if kind = .method then still (define "this" (← look).className .argument)
  between '(' (parameters budget) ')'
  subroutineBody budget kind

/-! ## The class -/

/-- `class name {declarations subroutines}` -/
def classDeclaration (budget : Nat) : ActionM σ Unit := do
  expect (.keyword .classKw)
  let className ← name
  still (nameClass className)
  still (note (.compilingClass className))
  expectSymbol '{'
  many classVarKind? (varDeclaration budget) budget
  many subroutineKind? (subroutine budget) budget
  expectSymbol '}'

/-- Closes the writer if the source is at its end. -/
def finish : ActionM σ Unit := do
  if (← look).current.isSome then still (unexpected "end of input")
  -- the writer of a class that fails stays open
  still close

/-- Compiles the one class of the source and closes the writer, with a bound on what is
left to read. -/
def compileWithin (budget : Nat) : ActionM σ Unit := do
  move
  classDeclaration budget
  finish

/-- Compiles the one class of the source and closes the writer. -/
def compile : CompileM Unit := do
  compileWithin ((← get).lexer.budget + 2)

/-- Compiles the class of a source into a sink without limits. The compiler at the
end holds what was written, also if it failed. -/
def run (source : Source) : Except Error Unit × Compiler :=
  match compile (start { lines := source } {}) with
  | .ok _ compiler => (.ok (), compiler)
  | .error error compiler => (.error error, compiler)

end Compiler

/-- Compiles the class of a source to the text of its commands. -/
def compileSource (source : Source) : Except Error String :=
  let (result, compiler) := Compiler.run source
  result.map fun _ => compiler.writer.sink.text

/-- Compiles a class held in memory to the text of its commands. -/
def compileText (source : String) : Except Error String := compileSource (Source.ofText source)

end Jack
