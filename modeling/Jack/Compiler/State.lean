/-
The compiler's state and its smallest steps.

The compiler emits commands while it reads: there is no tree. It looks one token
ahead, `current`, and every rule of the grammar is an action that begins with the
rule's first token as the current one and ends with the token behind the rule,
all its commands emitted. The one exception is a deferred action: its commands
are captured, to be emitted later.

An action that fails keeps the state it reached, so a compiler that is used again
after an error goes on from there.

The rules are written over `Actions`, which says what a step does to a state. The
compiler itself is one kind of state. Another kind can carry a compiler and watch
it: the rules are the same text for both.
-/
import Jack.Lexer.Basic
import Jack.Vm.Writer

set_option autoImplicit false

namespace Jack

/-- A class that is being compiled. -/
structure Compiler where
  lexer : Lexer
  writer : Vm.Writer
  symbols : SymbolTable := {}
  /-- The next token of the source, if there is one. -/
  current : Option Token := none
  className : String := ""
  subroutineName : String := ""
  /-- How many numbers were used up by labels. -/
  labels : Nat := 0
  /-- The commands captured by the deferred actions that are running, the
  innermost action first and each one's last command first. -/
  deferred : List (List Vm.Command) := []

/-- An action of the compiler. -/
abbrev CompileM := EStateM Error Compiler

namespace Compiler

/-- A compiler at the beginning of a source. -/
def start (lexer : Lexer) (sink : Vm.Sink) : Compiler := { lexer, writer := { sink } }

/-! ## Single steps

What a step does to the compiler. Only `advance` reads a token, and only `defer` runs
another action. -/

/-- The line that errors are reported at. -/
def lineNumber : CompileM Nat := return (← get).lexer.lineNumber

/-- Fails because the current token is not what was wanted. -/
def unexpected {α : Type} (wanted : String) : CompileM α := do
  let found := match (← get).current with
    | some token => token.render
    | none => "end of input"
  throw (.expected (← lineNumber) wanted found)

/-- Makes the next token the current one. -/
def advance : CompileM Unit := fun compiler =>
  match compiler.lexer.next with
  | .ok current lexer => .ok () { compiler with lexer, current }
  -- a token that cannot be read leaves the one before it the current one
  | .error error lexer => .error error { compiler with lexer }

/-- Declares a variable. -/
def define (name type : String) (kind : VarKind) : CompileM Unit := fun compiler =>
  match SymbolTable.declare name type kind compiler.symbols with
  | .ok _ symbols => .ok () { compiler with symbols }
  -- a table knows no lines; the error gets that of the current token
  | .error _ symbols =>
    .error (.duplicateName (some compiler.lexer.lineNumber) name) { compiler with symbols }

/-- Declares variables of one type and kind in order. -/
def defineAll (type : String) (kind : VarKind) : List String → CompileM Unit
  | [] => return
  | name :: rest => do
    define name type kind
    defineAll type kind rest

/-- Declares the parameters of a subroutine in order. -/
def defineParameters : List (String × String) → CompileM Unit
  | [] => return
  | (type, name) :: rest => do
    define name type .argument
    defineParameters rest

/-- Forgets the arguments and locals of the subroutine before. -/
def startSubroutine : CompileM Unit :=
  modify fun compiler => { compiler with symbols := compiler.symbols.startSubroutine }

/-- Takes note of the name of the subroutine. -/
def nameSubroutine (subroutineName : String) : CompileM Unit :=
  modify fun compiler => { compiler with subroutineName }

/-- Takes note of the name of the class. -/
def nameClass (className : String) : CompileM Unit :=
  modify fun compiler => { compiler with className }

/-- The variable that a name has to stand for. -/
def lookup (name : String) : CompileM Symbol := do
  match (← get).symbols.resolve? name with
  | some symbol => return symbol
  | none => throw (.undeclaredName (← lineNumber) name)

/-- Takes the next number for labels. -/
def freshLabel : CompileM String :=
  modifyGet fun compiler =>
    (toString compiler.labels, { compiler with labels := compiler.labels + 1 })

/-- Tells something about the run. -/
def note (event : LogEvent) : CompileM Unit :=
  fun ⟨lexer, writer, symbols, current, className, subroutineName, labels, deferred⟩ =>
    match writer.note event with
    | .ok _ writer =>
      .ok () ⟨lexer, writer, symbols, current, className, subroutineName, labels, deferred⟩
    | .error error writer =>
      .error error ⟨lexer, writer, symbols, current, className, subroutineName, labels, deferred⟩

/-- Writes a command, or captures it if an action is deferred. -/
def emit (command : Vm.Command) : CompileM Unit :=
  fun ⟨lexer, writer, symbols, current, className, subroutineName, labels, deferred⟩ =>
    match deferred with
    | captured :: outer =>
      .ok () ⟨lexer, writer, symbols, current, className, subroutineName, labels,
        (command :: captured) :: outer⟩
    | [] =>
      match writer.write command with
      | .ok _ writer =>
        .ok () ⟨lexer, writer, symbols, current, className, subroutineName, labels, []⟩
      | .error error writer =>
        .error error ⟨lexer, writer, symbols, current, className, subroutineName, labels, []⟩

/-- Emits commands in order. -/
def emitAll : List Vm.Command → CompileM Unit
  | [] => return
  | command :: rest => do
    emit command
    emitAll rest

/-- Runs an action and captures its commands. A failing action leaves nothing
captured. -/
def defer (action : CompileM Unit) : CompileM (List Vm.Command) := fun compiler =>
  match action { compiler with deferred := [] :: compiler.deferred } with
  -- the list of the action is the innermost one, whatever was captured on the way
  | .ok _ reached =>
    .ok (reached.deferred.headD []).reverse { reached with deferred := reached.deferred.tail }
  | .error error reached => .error error { reached with deferred := reached.deferred.tail }

/-- Closes the writer. -/
def close : CompileM Unit :=
  fun ⟨lexer, writer, symbols, current, className, subroutineName, labels, deferred⟩ =>
    match writer.close with
    | .ok _ writer =>
      .ok () ⟨lexer, writer, symbols, current, className, subroutineName, labels, deferred⟩
    | .error error writer =>
      .error error ⟨lexer, writer, symbols, current, className, subroutineName, labels, deferred⟩

/-! ## Kinds of states -/

/-- What the rules of the grammar are put together from, on a kind of states that carry a
compiler. -/
class Actions (σ : Type) where
  /-- The compiler. -/
  look : EStateM Error σ Compiler
  /-- Carries out a step of the compiler that reads no token. -/
  still {α : Type} (action : CompileM α) : EStateM Error σ α
  /-- Makes the next token the current one. -/
  move : EStateM Error σ Unit
  /-- Runs an action and captures its commands. -/
  capture (action : EStateM Error σ Unit) : EStateM Error σ (List Vm.Command)
  /-- What happens where the bound of a loop or of a nesting rule is used up. -/
  overrun : EStateM Error σ Unit

/-- The compiler takes no notice of its bounds. -/
instance : Actions Compiler where
  look := get
  still action := action
  move := advance
  capture := defer
  overrun := pure ()

open Actions (look still move capture overrun)

/-! A rule that runs on a compiler takes the steps of the compiler. -/

@[simp] theorem look_eq : (look : CompileM Compiler) = get := rfl

@[simp] theorem still_eq {α : Type} (action : CompileM α) :
    (still action : CompileM α) = action := rfl

@[simp] theorem move_eq : (move : CompileM Unit) = advance := rfl

@[simp] theorem capture_eq (action : CompileM Unit) :
    (capture action : CompileM (List Vm.Command)) = defer action := rfl

@[simp] theorem overrun_eq : (overrun : CompileM Unit) = pure () := rfl

/-- An action on a kind of states. -/
abbrev ActionM (σ : Type) := EStateM Error σ

variable {σ : Type} [Actions σ] {α : Type}

/-! ## Moving on -/

/-- Whether the current token is a given symbol. -/
def atSymbol (c : Char) : ActionM σ Bool := return (← look).current == some (.symbol c)

/-- Whether the current token is a given keyword. -/
def atKeyword (keyword : Keyword) : ActionM σ Bool :=
  return (← look).current == some (.keyword keyword)

/-- Moves over a given token. -/
def expect (token : Token) : ActionM σ Unit := do
  if (← look).current == some token then move else still (unexpected token.render)

/-- Moves over a given symbol. -/
def expectSymbol (c : Char) : ActionM σ Unit := expect (.symbol c)

/-- A rule between two symbols. -/
def between (opening : Char) (rule : ActionM σ α) (closing : Char) : ActionM σ α := do
  expectSymbol opening
  let value ← rule
  expectSymbol closing
  return value

/-- The rest of a list whose items are separated by commas. `found` holds the
items so far, last one first, and `budget` bounds their number. -/
def commaListFrom (item : ActionM σ α) (found : List α) : Nat → ActionM σ (List α)
  | 0 => do
    overrun
    return found.reverse
  | budget + 1 => do
    if ← atSymbol ',' then
      move
      commaListFrom item ((← item) :: found) budget
    else return found.reverse

/-- One or more items separated by commas. -/
def commaList (item : ActionM σ α) (budget : Nat) : ActionM σ (List α) := do
  commaListFrom item [← item] budget

/-- Repeats a rule for as long as the current token begins it. `head` tells what
the token begins, and `budget` bounds the number of rounds. -/
def many (head : Token → Option α) (rule : α → ActionM σ Unit) : Nat → ActionM σ Unit
  | 0 => overrun
  | budget + 1 => do
    match (← look).current.bind head with
    -- the rule begins with this token, and has to move over it itself
    | some found =>
      rule found
      many head rule budget
    | none => return

/-- An identifier. -/
def name : ActionM σ String := do
  match (← look).current with
  | some (.identifier name) =>
    move
    return name
  | _ => still (unexpected "identifier")

/-- The type that a token names. -/
def typeName? : Token → Option String
  | .keyword .intKw => some "int"
  | .keyword .charKw => some "char"
  | .keyword .booleanKw => some "boolean"
  | .identifier name => some name
  | _ => none

/-- A type. -/
def type : ActionM σ String := do
  match (← look).current.bind typeName? with
  | some type =>
    move
    return type
  | none => still (unexpected "type")

/-! ## Emitting commands -/

/-- Emits a `push`. -/
def push (segment : Vm.Segment) (index : Int) : ActionM σ Unit :=
  still (emit (.push segment index))

/-- Emits a `pop`. -/
def pop (segment : Vm.Segment) (index : Int) : ActionM σ Unit :=
  still (emit (.pop segment index))

/-- Emits an operation on the top of the stack. -/
def operation (op : Vm.Operation) : ActionM σ Unit := still (emit (.operation op))

/-- Emits a `call`. -/
def call (callee : String) (arguments : Nat) : ActionM σ Unit :=
  still (emit (.call callee arguments))

/-- Pushes the value of a variable. -/
def pushVariable (symbol : Symbol) : ActionM σ Unit := push symbol.kind.segment symbol.index.toNat

/-- Pops a value into a variable. -/
def popVariable (symbol : Symbol) : ActionM σ Unit := pop symbol.kind.segment symbol.index.toNat

end Compiler

end Jack
