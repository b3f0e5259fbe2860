/-
The writer: commands to lines of a sink.

A writer takes commands until it is closed. Closing flushes the sink, once: after
the first attempt the writer is closed, whether or not the flush succeeded, and
closing it again does nothing. The log of the run travels with the writer, since
what it writes and what else is told about the run share one order.
-/
import Jack.Log
import Jack.Vm.Sink

set_option autoImplicit false

namespace Jack.Vm

/-- A sink that takes commands, with the log of the run. -/
structure Writer where
  sink : Sink := {}
  closed : Bool := false
  log : Log := #[]

namespace Writer

/-- Adds an event to the log. -/
def note (event : LogEvent) : EStateM Error Writer Unit := fun ⟨sink, closed, log⟩ =>
  .ok () ⟨sink, closed, log.push event⟩

/-- Writes a line. Nothing is logged or written once the writer is closed. -/
def writeLine (line : String) : EStateM Error Writer Unit := fun ⟨sink, closed, log⟩ =>
  if closed then .error (.io .writerClosed) ⟨sink, closed, log⟩
  else
    match sink.write (line ++ "\n") with
    | .ok _ sink => .ok () ⟨sink, closed, log.push (.writing line)⟩
    | .error error sink => .error error ⟨sink, closed, log.push (.writing line)⟩

/-- Closes the writer and flushes its sink, unless it is closed already. -/
def close : EStateM Error Writer Unit := fun ⟨sink, closed, log⟩ =>
  if closed then .ok () ⟨sink, closed, log⟩
  else
    match sink.flush with
    | .ok _ sink => .ok () ⟨sink, true, log⟩
    | .error error sink => .error error ⟨sink, true, log⟩

/-! ## One method for each command -/

/-- Writes a `push`. -/
def push (segment : Segment) (index : Int) : EStateM Error Writer Unit :=
  writeLine ("push " ++ segment.render ++ " " ++ toString index)

/-- Writes a `pop`. -/
def pop (segment : Segment) (index : Int) : EStateM Error Writer Unit :=
  writeLine ("pop " ++ segment.render ++ " " ++ toString index)

/-- Writes an operation on the top of the stack. -/
def operation (op : Operation) : EStateM Error Writer Unit := writeLine op.render

/-- Writes a `label`. -/
def label (name : String) : EStateM Error Writer Unit := writeLine ("label " ++ name)

/-- Writes a `goto`. -/
def goto (name : String) : EStateM Error Writer Unit := writeLine ("goto " ++ name)

/-- Writes an `if-goto`. -/
def ifGoto (name : String) : EStateM Error Writer Unit := writeLine ("if-goto " ++ name)

/-- Writes a `call`. -/
def call (callee : String) (arguments : Nat) : EStateM Error Writer Unit :=
  writeLine ("call " ++ callee ++ " " ++ toString arguments)

/-- Writes a `function`. -/
def function (name : String) (locals : Nat) : EStateM Error Writer Unit :=
  writeLine ("function " ++ name ++ " " ++ toString locals)

/-- Writes a `return`. -/
def ret : EStateM Error Writer Unit := writeLine "return"

/-- Writes a command by the method for it. -/
def write : Command → EStateM Error Writer Unit
  | .push segment index => push segment index
  | .pop segment index => pop segment index
  | .operation op => operation op
  | .label name => label name
  | .goto name => goto name
  | .ifGoto name => ifGoto name
  | .call callee arguments => call callee arguments
  | .function name locals => function name locals
  | .ret => ret

/-- A command is written as the line that shows it. -/
theorem write_eq (command : Command) : write command = writeLine command.render := by
  cases command <;> rfl

theorem write_closed (command : Command) (sink : Sink) (log : Log) :
    write command ⟨sink, true, log⟩ = .error (.io .writerClosed) ⟨sink, true, log⟩ := by
  rw [write_eq]
  rfl

end Writer

end Jack.Vm
