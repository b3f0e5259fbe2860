/-
The commands of the stack machine that programs are compiled to, and how a
command is written: one line of words separated by single blanks.
-/

set_option autoImplicit false

namespace Jack.Vm

/-- The memory segments that values are pushed from and popped into. -/
inductive Segment where
  /-- No memory: the index itself is the value. -/
  | constant
  | argument
  | localVar
  | static
  /-- The object whose address is in `pointer 0`. -/
  | this
  /-- The array element whose address is in `pointer 1`. -/
  | that
  | pointer
  | temp
  deriving DecidableEq, Repr

/-- How a segment is written. -/
def Segment.render : Segment → String
  | constant => "constant"
  | argument => "argument"
  | localVar => "local"
  | static => "static"
  | this => "this"
  | that => "that"
  | pointer => "pointer"
  | temp => "temp"

/-- The operations on the top of the stack. -/
inductive Operation where
  | add
  | sub
  | neg
  | eq
  | gt
  | lt
  | and
  | or
  | not
  deriving DecidableEq, Repr

/-- How an operation is written. -/
def Operation.render : Operation → String
  | add => "add"
  | sub => "sub"
  | neg => "neg"
  | eq => "eq"
  | gt => "gt"
  | lt => "lt"
  | and => "and"
  | or => "or"
  | not => "not"

/-- A command of the stack machine. -/
inductive Command where
  | push (segment : Segment) (index : Int)
  | pop (segment : Segment) (index : Int)
  | operation (operation : Operation)
  | label (name : String)
  | goto (name : String)
  /-- Jumps if the value popped is not zero. -/
  | ifGoto (name : String)
  | call (callee : String) (arguments : Nat)
  | function (name : String) (locals : Nat)
  | ret
  deriving DecidableEq, Repr

/-- The line a command is written as, without the line feed. -/
def Command.render : Command → String
  | push segment index => "push " ++ segment.render ++ " " ++ toString index
  | pop segment index => "pop " ++ segment.render ++ " " ++ toString index
  | operation op => op.render
  | label name => "label " ++ name
  | goto name => "goto " ++ name
  | ifGoto name => "if-goto " ++ name
  | call callee arguments => "call " ++ callee ++ " " ++ toString arguments
  | function name locals => "function " ++ name ++ " " ++ toString locals
  | ret => "return"

end Jack.Vm
