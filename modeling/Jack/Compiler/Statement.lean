/-
Statements.

Each conditional and each loop takes one number for its labels before anything
inside it is compiled, so no two of them share a label.

An assignment to an array element computes the address after the value, although
the index comes first in the source: the commands of the index are captured and
emitted once the value is in `temp 0`.

Blocks nest in each other, so `statements` carries a budget for the depth.
-/
import Jack.Compiler.Expression

set_option autoImplicit false

namespace Jack.Compiler

open Actions (still move capture overrun)

variable {σ : Type} [Actions σ]

/-- The five kinds of statement. -/
inductive StatementKind where
  | assignment
  | conditional
  | loop
  | invocation
  | exit
  deriving DecidableEq, Repr

/-- The kind of statement that a token begins. -/
def statementKind? : Token → Option StatementKind
  | .keyword .letKw => some .assignment
  | .keyword .ifKw => some .conditional
  | .keyword .whileKw => some .loop
  | .keyword .doKw => some .invocation
  | .keyword .returnKw => some .exit
  | _ => none

/-- `let name = value;` or `let name[index] = value;` -/
def assignment (budget : Nat) : ActionM σ Unit := do
  move
  let target ← still (lookup (← name))
  if ← atSymbol '[' then
    let index ← capture (between '[' (expression budget) ']')
    expectSymbol '='
    expression budget
    expectSymbol ';'
    -- the value stays in `temp 0` until `pointer 1` holds the address
    pop .temp 0
    pushVariable target
    still (emitAll index)
    operation .add
    pop .pointer 1
    push .temp 0
    pop .that 0
  else
    expectSymbol '='
    expression budget
    expectSymbol ';'
    popVariable target

/-- `while (condition) {block}` -/
def loop (block : ActionM σ Unit) (budget : Nat) : ActionM σ Unit := do
  -- the number is used up, even if the next token cannot be read
  let number ← still freshLabel
  move
  still (emit (.label ("WHILE_START_" ++ number)))
  between '(' (expression budget) ')'
  operation .not
  still (emit (.ifGoto ("WHILE_END_" ++ number)))
  between '{' block '}'
  still (emit (.goto ("WHILE_START_" ++ number)))
  still (emit (.label ("WHILE_END_" ++ number)))

/-- `if (condition) {block}`, optionally followed by `else {block}`. The first
label is never jumped to; it marks where the statement begins, as in a loop. -/
def conditional (block : ActionM σ Unit) (budget : Nat) : ActionM σ Unit := do
  let number ← still freshLabel
  move
  still (emit (.label ("IF_START_" ++ number)))
  between '(' (expression budget) ')'
  operation .not
  still (emit (.ifGoto ("ELSE_" ++ number)))
  between '{' block '}'
  still (emit (.goto ("IF_END_" ++ number)))
  still (emit (.label ("ELSE_" ++ number)))
  if ← atKeyword .elseKw then
    move
    between '{' block '}'
  still (emit (.label ("IF_END_" ++ number)))

/-- `do call;` The value that the call leaves is dropped. -/
def invocation (budget : Nat) : ActionM σ Unit := do
  move
  subroutineCall (expression budget) budget (← name)
  expectSymbol ';'
  pop .temp 0

/-- `return;` or `return value;` A call always leaves a value, so a return without
one leaves zero. -/
def exit (budget : Nat) : ActionM σ Unit := do
  move
  if ← atSymbol ';' then push .constant 0 else expression budget
  still (emit .ret)
  expectSymbol ';'

/-- A statement of a given kind, given what a block inside it is. -/
def statement (block : ActionM σ Unit) (budget : Nat) : StatementKind → ActionM σ Unit
  | .assignment => assignment budget
  | .conditional => conditional block budget
  | .loop => loop block budget
  | .invocation => invocation budget
  | .exit => exit budget

/-- Statements up to the first token that begins none, with a budget for how deep
blocks nest inside them. -/
def statements : Nat → ActionM σ Unit
  | 0 => do
    overrun
    still (unexpected "statement")
  | budget + 1 => many statementKind? (statement (statements budget) budget) budget

end Jack.Compiler
