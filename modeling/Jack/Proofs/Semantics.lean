/-
What expressions and statements mean.

Expressions are evaluated strictly from left to right: operators have no
precedence, a call evaluates its receiver before its arguments, an array element
its base before its index. Multiplication, division and string constants are
calls. An evaluation changes nothing but the world, and has no value when a call
does not answer.

A branch or a loop body runs if and only if its condition is the word for true,
not any word but zero. An assignment to an array element evaluates the value, then
the base, then the index.

A variable is a place: with `k` variables of its kind in front of it, it is local `k`,
argument `k` or static `k`, and a field is the `k`-th word of the object. There is no
bound on `k`: the meaning of a program knows nothing of the counters of a compiler.
-/
import Jack.Proofs.Indices
import Jack.Proofs.Machine

set_option autoImplicit false

namespace Jack

open Vm (Word World Memory Oracle truth)

/-- Where a variable is kept. -/
structure Syntax.Cell where
  kind : VarKind
  /-- How many variables of the kind are in front of it. -/
  place : Nat
  deriving DecidableEq, Repr

/-- Where a variable of a scope is kept. -/
def Syntax.Scope.cell (scope : Scope) (symbol : Symbol) : Cell := ⟨symbol.kind, scope.place symbol⟩

namespace Vm.Memory

open Syntax (Cell)

variable {E : Type}

/-- The value of a variable. -/
def fetch (memory : Memory E) (cell : Cell) : Word :=
  match cell.kind with
  | .static => memory.world.statics cell.place
  | .field => memory.world.heap (memory.this + BitVec.ofNat 16 cell.place)
  | .argument => memory.arguments cell.place
  | .localVar => memory.locals cell.place

/-- A word of the heap changed. -/
def setHeap (memory : Memory E) (address value : Word) : Memory E :=
  { memory with world.heap := Function.update memory.world.heap address value }

/-- The value of a variable changed. -/
def assign (memory : Memory E) (cell : Cell) (value : Word) : Memory E :=
  match cell.kind with
  | .static => { memory with world.statics := Function.update memory.world.statics cell.place value }
  | .field => memory.setHeap (memory.this + BitVec.ofNat 16 cell.place) value
  | .argument => { memory with arguments := Function.update memory.arguments cell.place value }
  | .localVar => { memory with locals := Function.update memory.locals cell.place value }

/-- A call: its value, and what it leaves of the memory. -/
def call (memory : Memory E) (oracle : Oracle E) (callee : String) (values : List Word) :
    Option (Word × Memory E) :=
  (oracle callee values memory.world).map fun answer =>
    (answer.1, { memory with world := answer.2 })

end Vm.Memory

namespace Syntax

variable {E : Type}

/-! ## Operators and constants -/

/-- The value of a unary operator. -/
def UnaryOperator.eval (operand : Word) : UnaryOperator → Word
  | negate => -operand
  | complement => ~~~operand

/-- The value of a binary operator. -/
def BinaryOperator.eval (oracle : Oracle E) (first second : Word) (memory : Memory E) :
    BinaryOperator → Option (Word × Memory E)
  | add => some (first + second, memory)
  | sub => some (first - second, memory)
  | and => some (first &&& second, memory)
  | or => some (first ||| second, memory)
  | lt => some (truth (first.slt second), memory)
  | gt => some (truth (second.slt first), memory)
  | eq => some (truth (first == second), memory)
  | multiply => memory.call oracle "Math.multiply" [first, second]
  | divide => memory.call oracle "Math.divide" [first, second]

/-- The value of a constant. -/
def ConstantWord.eval (memory : Memory E) : ConstantWord → Word
  | true => -1
  | false => 0
  | null => 0
  | this => memory.this

/-- Appends characters to a string that was made. -/
def appendAll (oracle : Oracle E) : List Char → Word → Memory E → Option (Word × Memory E)
  | [], object, memory => some (object, memory)
  | c :: rest, object, memory => do
    let (object, memory) ← memory.call oracle "String.appendChar" [object, BitVec.ofNat 16 c.toNat]
    appendAll oracle rest object memory

/-! ## Expressions -/

mutual

/-- The value of a term. -/
def Term.eval (oracle : Oracle E) (scope : Scope) : Term → Memory E → Option (Word × Memory E)
  | .integer value, memory => some (BitVec.ofNat 16 value, memory)
  | .string content, memory => do
    let (object, memory) ← memory.call oracle "String.new" [BitVec.ofNat 16 content.length]
    appendAll oracle content.toList object memory
  | .word word, memory => some (word.eval memory, memory)
  | .var name, memory => do
    let symbol ← scope.resolve? name
    some (memory.fetch (scope.cell symbol), memory)
  | .element array index, memory => do
    let symbol ← scope.resolve? array
    let base := memory.fetch (scope.cell symbol)
    let (offset, memory) ← index.eval oracle scope memory
    some (memory.world.heap (base + offset), memory)
  | .call call, memory => call.eval oracle scope memory
  | .group inner, memory => inner.eval oracle scope memory
  | .unary operator operand, memory => do
    let (value, memory) ← operand.eval oracle scope memory
    some (operator.eval value, memory)

/-- The value of an expression. -/
def Expression.eval (oracle : Oracle E) (scope : Scope) :
    Expression → Memory E → Option (Word × Memory E)
  | .chain first rest, memory => do
    let (value, memory) ← first.eval oracle scope memory
    rest.eval oracle scope value memory

/-- The value of what stands behind the first term, given the value so far. -/
def Operations.eval (oracle : Oracle E) (scope : Scope) :
    Operations → Word → Memory E → Option (Word × Memory E)
  | .nil, value, memory => some (value, memory)
  | .cons operator operand rest, value, memory => do
    let (second, memory) ← operand.eval oracle scope memory
    let (value, memory) ← operator.eval oracle value second memory
    rest.eval oracle scope value memory

/-- The value of a call. -/
def Call.eval (oracle : Oracle E) (scope : Scope) : Call → Memory E → Option (Word × Memory E)
  | .bare routine arguments, memory => do
    let receiver := memory.this
    let (values, memory) ← arguments.eval oracle scope memory
    memory.call oracle (scope.className ++ "." ++ routine) (receiver :: values)
  | .dotted owner routine arguments, memory =>
    match scope.resolve? owner with
    | some symbol => do
      let receiver := memory.fetch (scope.cell symbol)
      let (values, memory) ← arguments.eval oracle scope memory
      memory.call oracle (symbol.type ++ "." ++ routine) (receiver :: values)
    | none => do
      let (values, memory) ← arguments.eval oracle scope memory
      memory.call oracle (owner ++ "." ++ routine) values

/-- The values of arguments, in order. -/
def Arguments.eval (oracle : Oracle E) (scope : Scope) :
    Arguments → Memory E → Option (List Word × Memory E)
  | .nil, memory => some ([], memory)
  | .cons first rest, memory => do
    let (value, memory) ← first.eval oracle scope memory
    let (values, memory) ← rest.eval oracle scope memory
    some (value :: values, memory)

end

/-! ## Statements -/

/-- How statements end: the next statement is up, or the subroutine returns a value. -/
inductive Ending where
  | next
  | exit (value : Word)

mutual

/-- A statement runs to an end. -/
inductive Statement.Runs (oracle : Oracle E) (scope : Scope) :
    Statement → Memory E → Ending → Memory E → Prop where
  | assign {target : String} {value : Expression} {symbol : Symbol} {result : Word}
      {memory after : Memory E}
      (hvalue : value.eval oracle scope memory = some (result, after))
      (htarget : scope.resolve? target = some symbol) :
      Statement.Runs oracle scope (.assign target value) memory .next
        (after.assign (scope.cell symbol) result)
  | store {target : String} {index value : Expression} {symbol : Symbol} {result offset : Word}
      {memory middle after : Memory E}
      (hvalue : value.eval oracle scope memory = some (result, middle))
      (htarget : scope.resolve? target = some symbol)
      (hindex : index.eval oracle scope middle = some (offset, after)) :
      Statement.Runs oracle scope (.store target index value) memory .next
        (after.setHeap (middle.fetch (scope.cell symbol) + offset) result)
  | thenTaken {condition : Expression} {block : Block} {memory middle after : Memory E}
      {ending : Ending}
      (hcondition : condition.eval oracle scope memory = some (-1, middle))
      (hblock : Block.Runs oracle scope block middle ending after) :
      Statement.Runs oracle scope (.ifThen condition block) memory ending after
  | thenSkipped {condition : Expression} {block : Block} {result : Word} {memory after : Memory E}
      (hcondition : condition.eval oracle scope memory = some (result, after))
      (hresult : result ≠ -1) :
      Statement.Runs oracle scope (.ifThen condition block) memory .next after
  | firstTaken {condition : Expression} {block otherwise : Block} {memory middle after : Memory E}
      {ending : Ending}
      (hcondition : condition.eval oracle scope memory = some (-1, middle))
      (hblock : Block.Runs oracle scope block middle ending after) :
      Statement.Runs oracle scope (.ifElse condition block otherwise) memory ending after
  | otherTaken {condition : Expression} {block otherwise : Block} {result : Word}
      {memory middle after : Memory E} {ending : Ending}
      (hcondition : condition.eval oracle scope memory = some (result, middle))
      (hresult : result ≠ -1)
      (hblock : Block.Runs oracle scope otherwise middle ending after) :
      Statement.Runs oracle scope (.ifElse condition block otherwise) memory ending after
  | loopDone {condition : Expression} {body : Block} {result : Word} {memory after : Memory E}
      (hcondition : condition.eval oracle scope memory = some (result, after))
      (hresult : result ≠ -1) :
      Statement.Runs oracle scope (.loop condition body) memory .next after
  | loopRound {condition : Expression} {body : Block} {memory middle again after : Memory E}
      {ending : Ending}
      (hcondition : condition.eval oracle scope memory = some (-1, middle))
      (hbody : Block.Runs oracle scope body middle .next again)
      (hloop : Statement.Runs oracle scope (.loop condition body) again ending after) :
      Statement.Runs oracle scope (.loop condition body) memory ending after
  | loopExit {condition : Expression} {body : Block} {result : Word}
      {memory middle after : Memory E}
      (hcondition : condition.eval oracle scope memory = some (-1, middle))
      (hbody : Block.Runs oracle scope body middle (.exit result) after) :
      Statement.Runs oracle scope (.loop condition body) memory (.exit result) after
  | invoke {call : Call} {result : Word} {memory after : Memory E}
      (hcall : call.eval oracle scope memory = some (result, after)) :
      Statement.Runs oracle scope (.invoke call) memory .next after
  | exitNone {memory : Memory E} : Statement.Runs oracle scope (.exit none) memory (.exit 0) memory
  | exitSome {value : Expression} {result : Word} {memory after : Memory E}
      (hvalue : value.eval oracle scope memory = some (result, after)) :
      Statement.Runs oracle scope (.exit (some value)) memory (.exit result) after

/-- Statements in a row run to an end. -/
inductive Block.Runs (oracle : Oracle E) (scope : Scope) :
    Block → Memory E → Ending → Memory E → Prop where
  | nil {memory : Memory E} : Block.Runs oracle scope .nil memory .next memory
  | next {first : Statement} {rest : Block} {memory middle after : Memory E} {ending : Ending}
      (hfirst : Statement.Runs oracle scope first memory .next middle)
      (hrest : Block.Runs oracle scope rest middle ending after) :
      Block.Runs oracle scope (.cons first rest) memory ending after
  | exit {first : Statement} {rest : Block} {result : Word} {memory after : Memory E}
      (hfirst : Statement.Runs oracle scope first memory (.exit result) after) :
      Block.Runs oracle scope (.cons first rest) memory (.exit result) after

end

end Syntax

end Jack
