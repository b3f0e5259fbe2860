/-
Expressions.

Operators have no precedence: a chain of terms is worked off from left to right,
each operator right behind its second term. Multiplication, division and string
constants are calls of library routines. A call pushes its receiver before its
arguments, and reading an array element pushes the base before the index.

Terms nest in each other, so `term` carries a budget for the depth: it falls by
one with every step inwards, and each such step has moved over a token.
-/
import Jack.Compiler.State

set_option autoImplicit false

namespace Jack.Compiler

open Actions (look still move overrun)

variable {σ : Type} [Actions σ]

/-! ## Operators -/

/-- The command of a binary operator. -/
def binaryOperator? : Token → Option Vm.Command
  | .symbol '+' => some (.operation .add)
  | .symbol '-' => some (.operation .sub)
  | .symbol '&' => some (.operation .and)
  | .symbol '|' => some (.operation .or)
  | .symbol '<' => some (.operation .lt)
  | .symbol '>' => some (.operation .gt)
  | .symbol '=' => some (.operation .eq)
  | .symbol '*' => some (.call "Math.multiply" 2)
  | .symbol '/' => some (.call "Math.divide" 2)
  | _ => none

/-- A chain of terms, given what a term is: `term (op term)*`. -/
def chain (term : ActionM σ Unit) (budget : Nat) : ActionM σ Unit := do
  term
  many binaryOperator? (fun command => do
    move
    term
    still (emit command)) budget

/-! ## String constants -/

/-- The commands that append a character to the string on the stack. -/
def appendCharacter (c : Char) : List Vm.Command :=
  [.push .constant c.toNat, .call "String.appendChar" 2]

/-- The commands that build a string constant character by character. -/
def stringCommands (content : String) : List Vm.Command :=
  .push .constant content.length :: .call "String.new" 1 ::
    content.toList.flatMap appendCharacter

/-! ## Calls -/

/-- The largest number of arguments that a call may pass, receiver included. -/
def maxArguments : Nat := 65535

/-- Fails because a call passes too many arguments. -/
def tooManyArguments (callee : String) : CompileM Unit := do
  throw (.tooManyArguments (← lineNumber) callee)

/-- The arguments of a call, possibly none; the result is their number. -/
def arguments (expression : ActionM σ Unit) (budget : Nat) : ActionM σ Nat := do
  if ← atSymbol ')' then return 0
  return (← commaList expression budget).length

/-- Finds out what a call calls, and pushes the receiver if there is one. The
name in front has been read. The result is the callee's full name and the number
of receivers. -/
def callee (first : String) : ActionM σ (String × Nat) := do
  if ← atSymbol '.' then
    move
    let routine ← name
    match (← look).symbols.resolve? first with
    -- a variable: a method of the object that it refers to
    | some symbol =>
      pushVariable symbol
      return (symbol.type ++ "." ++ routine, 1)
    -- otherwise a class: a function or a constructor
    | none => return (first ++ "." ++ routine, 0)
  else
    push .pointer 0
    return ((← look).className ++ "." ++ first, 1)

/-- A call whose first name has been read: `(list)` or `.name(list)`. -/
def subroutineCall (expression : ActionM σ Unit) (budget : Nat) (first : String) :
    ActionM σ Unit := do
  let (callee, receivers) ← callee first
  let count ← between '(' (arguments expression budget) ')'
  if count + receivers ≤ maxArguments then call callee (count + receivers)
  else still (tooManyArguments callee)

/-! ## Terms -/

/-- A term that begins with a name: a call, an array element or a variable. -/
def namedTerm (expression : ActionM σ Unit) (budget : Nat) (first : String) : ActionM σ Unit := do
  move
  if (← atSymbol '(') || (← atSymbol '.') then subroutineCall expression budget first
  else if ← atSymbol '[' then
    pushVariable (← still (lookup first))
    between '[' expression ']'
    operation .add
    pop .pointer 1
    push .that 0
  else pushVariable (← still (lookup first))

/-- A term, with a budget for how deep terms nest inside it. -/
def term : Nat → ActionM σ Unit
  | 0 => do
    overrun
    still (unexpected "term")
  | budget + 1 => do
    let inner := term budget
    let expression := chain inner budget
    match (← look).current with
    | some (.integer value) =>
      move
      push .constant value
    | some (.string content) =>
      move
      still (emitAll (stringCommands content))
    | some (.keyword .trueKw) =>
      move
      push .constant (-1)
    | some (.keyword .falseKw) | some (.keyword .nullKw) =>
      move
      push .constant 0
    | some (.keyword .thisKw) =>
      move
      push .pointer 0
    | some (.symbol '(') => between '(' expression ')'
    | some (.symbol '-') =>
      move
      inner
      operation .neg
    | some (.symbol '~') =>
      move
      inner
      operation .not
    | some (.identifier first) => namedTerm expression budget first
    | _ => still (unexpected "term")

/-- An expression. -/
def expression (budget : Nat) : ActionM σ Unit := chain (term budget) budget

end Jack.Compiler
