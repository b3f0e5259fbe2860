/-
The translation of a class tree, rule by rule.

This is what a compiler with a tree in hand would emit: every function here
recurses over the tree and nothing else. The commands of a tree do not depend on
what stands around it, except through the scope of its names and the number of
the first label it may use. Labels are numbered in the order of the source: a
conditional or loop takes its number before anything inside it, so a statement
that starts at `n` leaves `n + labels` to the next one.

The order of an assignment to an array element is that of evaluation: the value,
then the base, then the index.
-/
import Jack.Proofs.Scope

set_option autoImplicit false

namespace Jack.Syntax

open Vm (Command)

/-! ## Names, operators and constants -/

/-- The command that pushes a variable. -/
def pushOf (symbol : Symbol) : Command := .push symbol.kind.segment symbol.index

/-- The command that pops into a variable. -/
def popOf (symbol : Symbol) : Command := .pop symbol.kind.segment symbol.index

/-- The commands that push the variable of a name, none if it has no variable. -/
def Scope.pushName (scope : Scope) (name : String) : List Command :=
  ((scope.resolve? name).map pushOf).toList

/-- The commands that pop into the variable of a name. -/
def Scope.popName (scope : Scope) (name : String) : List Command :=
  ((scope.resolve? name).map popOf).toList

/-- The command of a unary operator. -/
def UnaryOperator.command : UnaryOperator → Command
  | negate => .operation .neg
  | complement => .operation .not

/-- The command of a binary operator. Multiplication and division are calls. -/
def BinaryOperator.command : BinaryOperator → Command
  | add => .operation .add
  | sub => .operation .sub
  | and => .operation .and
  | or => .operation .or
  | lt => .operation .lt
  | gt => .operation .gt
  | eq => .operation .eq
  | multiply => .call "Math.multiply" 2
  | divide => .call "Math.divide" 2

/-- The command of a constant. -/
def ConstantWord.command : ConstantWord → Command
  | true => .push .constant (-1)
  | false => .push .constant 0
  | null => .push .constant 0
  | this => .push .pointer 0

/-- The commands of a string constant: a new string of its length, then its
characters one by one. -/
def stringCode (content : String) : List Command :=
  .push .constant content.length :: .call "String.new" 1 ::
    content.toList.flatMap fun c => [.push .constant c.toNat, .call "String.appendChar" 2]

/-! ## Expressions -/

mutual

/-- The commands of a term. -/
def Term.code (scope : Scope) : Term → List Command
  | .integer value => [.push .constant value]
  | .string content => stringCode content
  | .word word => [word.command]
  | .var name => scope.pushName name
  | .element array index =>
    scope.pushName array ++ index.code scope ++
      [.operation .add, .pop .pointer 1, .push .that 0]
  | .call call => call.code scope
  | .group inner => inner.code scope
  | .unary operator operand => operand.code scope ++ [operator.command]

/-- The commands of an expression: its terms from left to right. -/
def Expression.code (scope : Scope) : Expression → List Command
  | .chain first rest => first.code scope ++ rest.code scope

/-- The commands behind the first term: each operator right behind its second term. -/
def Operations.code (scope : Scope) : Operations → List Command
  | .nil => []
  | .cons operator operand rest => operand.code scope ++ operator.command :: rest.code scope

/-- The commands of a call: the receiver if there is one, the arguments, the call. -/
def Call.code (scope : Scope) : Call → List Command
  | .bare routine arguments =>
    .push .pointer 0 ::
      (arguments.code scope ++ [.call (scope.className ++ "." ++ routine) (arguments.length + 1)])
  | .dotted owner routine arguments =>
    match scope.resolve? owner with
    | some symbol =>
      pushOf symbol ::
        (arguments.code scope ++ [.call (symbol.type ++ "." ++ routine) (arguments.length + 1)])
    | none => arguments.code scope ++ [.call (owner ++ "." ++ routine) arguments.length]

/-- The commands of arguments, in order. -/
def Arguments.code (scope : Scope) : Arguments → List Command
  | .nil => []
  | .cons first rest => first.code scope ++ rest.code scope

end

/-! ## Labels -/

/-- What a label marks. -/
inductive LabelTag where
  | whileStart
  | whileEnd
  | ifStart
  | ifEnd
  | otherwise
  deriving DecidableEq, Repr

/-- What the name of a label begins with. -/
def LabelTag.text : LabelTag → String
  | whileStart => "WHILE_START_"
  | whileEnd => "WHILE_END_"
  | ifStart => "IF_START_"
  | ifEnd => "IF_END_"
  | otherwise => "ELSE_"

/-- The name of the label with a number. -/
def LabelTag.name (tag : LabelTag) (number : Nat) : String := tag.text ++ toString number

mutual

/-- How many numbers for labels a statement takes. -/
def Statement.labels : Statement → Nat
  | .assign _ _ => 0
  | .store _ _ _ => 0
  | .ifThen _ block => block.labels + 1
  | .ifElse _ block otherwise => block.labels + otherwise.labels + 1
  | .loop _ body => body.labels + 1
  | .invoke _ => 0
  | .exit _ => 0

/-- How many numbers for labels a block takes. -/
def Block.labels : Block → Nat
  | .nil => 0
  | .cons first rest => first.labels + rest.labels

end

/-! ## Statements -/

/-- The commands of a conditional, given those of its parts. -/
def conditionalCode (number : Nat) (condition block otherwise : List Command) : List Command :=
  .label (LabelTag.ifStart.name number) ::
    (condition ++ .operation .not :: .ifGoto (LabelTag.otherwise.name number) ::
      (block ++ .goto (LabelTag.ifEnd.name number) :: .label (LabelTag.otherwise.name number) ::
        (otherwise ++ [.label (LabelTag.ifEnd.name number)])))

/-- The commands of a loop, given those of its parts. -/
def loopCode (number : Nat) (condition body : List Command) : List Command :=
  .label (LabelTag.whileStart.name number) ::
    (condition ++ .operation .not :: .ifGoto (LabelTag.whileEnd.name number) ::
      (body ++ [.goto (LabelTag.whileStart.name number), .label (LabelTag.whileEnd.name number)]))

/-- The commands of an assignment to an array element, given those of its parts.
The value stays in `temp 0` until `pointer 1` holds the address. -/
def storeCode (base index value : List Command) : List Command :=
  value ++ .pop .temp 0 :: (base ++ index ++
    [.operation .add, .pop .pointer 1, .push .temp 0, .pop .that 0])

mutual

/-- The commands of a statement whose first label has a given number. -/
def Statement.code (scope : Scope) (number : Nat) : Statement → List Command
  | .assign target value => value.code scope ++ scope.popName target
  | .store target index value =>
    storeCode (scope.pushName target) (index.code scope) (value.code scope)
  | .ifThen condition block =>
    conditionalCode number (condition.code scope) (block.code scope (number + 1)) []
  | .ifElse condition block otherwise =>
    conditionalCode number (condition.code scope) (block.code scope (number + 1))
      (otherwise.code scope (number + 1 + block.labels))
  | .loop condition body =>
    loopCode number (condition.code scope) (body.code scope (number + 1))
  | .invoke call => call.code scope ++ [.pop .temp 0]
  | .exit none => [.push .constant 0, .ret]
  | .exit (some value) => value.code scope ++ [.ret]

/-- The commands of statements in a row. -/
def Block.code (scope : Scope) (number : Nat) : Block → List Command
  | .nil => []
  | .cons first rest => first.code scope number ++ rest.code scope (number + first.labels)

end

/-! ## Subroutines and classes -/

/-- A number as a counter of 16 bits shows it. -/
def counted (number : Nat) : Nat := (UInt16.ofNat number).toNat

/-- A number that fits is shown as it is. -/
theorem counted_of_lt {number : Nat} (hfits : number < UInt16.size) : counted number = number :=
  UInt16.toNat_ofNat_of_lt hfits

/-- How many locals a subroutine declares. -/
def Subroutine.localCount (subroutine : Subroutine) : Nat :=
  (subroutine.locals.flatMap Declaration.names).length

/-- How many fields a class declares. -/
def ClassTree.fieldCount (tree : ClassTree) : Nat := tree.vars.countP (·.kind = .field)

/-- The commands that prepare the object a subroutine works on. -/
def entryCode (fields : Nat) : Compiler.SubroutineKind → List Command
  | .constructor => [.push .constant fields, .call "Memory.alloc" 1, .pop .pointer 0]
  | .function => []
  | .method => [.push .argument 0, .pop .pointer 0]

/-- The commands of a subroutine whose first label has a given number. -/
def ClassTree.subroutineCode (tree : ClassTree) (number : Nat) (subroutine : Subroutine) :
    List Command :=
  .function (tree.name ++ "." ++ subroutine.name) (counted subroutine.localCount) ::
    (entryCode (counted tree.fieldCount) subroutine.kind ++
      subroutine.body.code (tree.scope subroutine) number)

/-- The commands of subroutines in a row. -/
def ClassTree.codeFrom (tree : ClassTree) (number : Nat) : List Subroutine → List Command
  | [] => []
  | first :: rest =>
    tree.subroutineCode number first ++ tree.codeFrom (number + first.body.labels) rest

/-- The commands of a class. -/
def ClassTree.code (tree : ClassTree) : List Command := tree.codeFrom 0 tree.subroutines

/-- Commands as text, one on each line. -/
def lines (commands : List Command) : String :=
  String.join (commands.map fun command => command.render ++ "\n")

end Jack.Syntax
