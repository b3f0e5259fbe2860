/-
What a writer answers and writes, over every run of its methods.

A run is a list of steps, each of them a call of one method: a close, a command through the
dispatcher, or a command through the method that is its own. Which of the two ways a command took
cannot be told afterwards (`Step.action_of_command`), so a run is determined by the commands and
closes in it.

A run falls into three parts. Up to the first close the writer takes every command. The first close
flushes the sink and closes the writer, whether or not the flush succeeds. From then on nothing
changes any more: a command is refused, and a further close has nothing to do. So there is one
lemma for a run of a writer that takes commands, one for a run of a closed writer, and the law of
all runs puts the first close between them.
-/
import Jack.Proofs.FullSink

set_option autoImplicit false

namespace Jack.Vm.Writer

/-! ## Runs -/

/-- A call of one of the writer's methods. -/
inductive Step where
  | close
  /-- A command through the dispatcher. -/
  | write (command : Command)
  | push (segment : Segment) (index : Int)
  | pop (segment : Segment) (index : Int)
  | operation (op : Operation)
  | label (name : String)
  | goto (name : String)
  | ifGoto (name : String)
  | call (callee : String) (arguments : Nat)
  | function (name : String) (locals : Nat)
  | ret
  deriving DecidableEq

namespace Step

/-- The method that a step calls. -/
def action : Step → EStateM Error Writer Unit
  | close => Writer.close
  | write command => Writer.write command
  | push segment index => Writer.push segment index
  | pop segment index => Writer.pop segment index
  | operation op => Writer.operation op
  | label name => Writer.label name
  | goto name => Writer.goto name
  | ifGoto name => Writer.ifGoto name
  | call callee arguments => Writer.call callee arguments
  | function name locals => Writer.function name locals
  | ret => Writer.ret

/-- The command that a step asks for, whichever way. -/
def command? : Step → Option Command
  | close => none
  | write command => some command
  | push segment index => some (.push segment index)
  | pop segment index => some (.pop segment index)
  | operation op => some (.operation op)
  | label name => some (.label name)
  | goto name => some (.goto name)
  | ifGoto name => some (.ifGoto name)
  | call callee arguments => some (.call callee arguments)
  | function name locals => some (.function name locals)
  | ret => some .ret

theorem command?_eq_none {step : Step} : step.command? = none ↔ step = close := by
  cases step <;> simp [command?]

theorem ne_close {step : Step} {command : Command} (h : step.command? = some command) :
    step ≠ close := by
  intro hclose
  rw [command?_eq_none.2 hclose] at h
  cases h

/-- The step that asks for the same through the dispatcher. -/
def dispatched (step : Step) : Step :=
  match step.command? with
  | none => close
  | some command => write command

/-- The method of a command writes what the dispatcher writes for it. -/
theorem action_of_command {step : Step} {command : Command}
    (h : step.command? = some command) : step.action = Writer.write command := by
  cases step <;> cases h <;> rfl

theorem action_dispatched (step : Step) : step.dispatched.action = step.action := by
  cases step <;> rfl

end Step

/-- Goes through the steps of a run: how each one failed, if it did, and the writer at the end. -/
def runAll : List Step → Writer → List (Option Error) × Writer
  | [], writer => ([], writer)
  | step :: steps, writer =>
    let result := step.action writer
    let (failures, last) := runAll steps (ended result)
    (failure result :: failures, last)

/-! ## What a run should come to -/

/-- The commands before the first close, in order. -/
def beforeClose (steps : List Step) : List Command :=
  (steps.takeWhile (· ≠ .close)).filterMap Step.command?

/-- How a step of a closed writer fails: a close does not, and a command is refused. -/
def refusal (step : Step) : Option Error :=
  if step = .close then none else some (.io .writerClosed)

/-- How the steps of a run fail, where the first close fails as given: nothing does before it. -/
def failuresOf (flushFailure : Option Error) : List Step → List (Option Error)
  | [] => []
  | step :: steps =>
    if step = .close then flushFailure :: steps.map refusal
    else none :: failuresOf flushFailure steps

/-! ## A closed writer -/

section

variable {writer : Writer}

theorem action_of_closed (hclosed : writer.closed = true) (step : Step) :
    failure (step.action writer) = refusal step ∧ ended (step.action writer) = writer := by
  obtain ⟨sink, closed, log⟩ := writer
  obtain rfl : closed = true := hclosed
  cases hcommand : step.command? with
  | none =>
    obtain rfl := Step.command?_eq_none.1 hcommand
    exact ⟨rfl, rfl⟩
  | some command =>
    rw [Step.action_of_command hcommand, write_closed, refusal, if_neg (Step.ne_close hcommand)]
    exact ⟨rfl, rfl⟩

/-- Nothing happens to a closed writer. -/
theorem runAll_of_closed (hclosed : writer.closed = true) (steps : List Step) :
    runAll steps writer = (steps.map refusal, writer) := by
  induction steps with
  | nil => rfl
  | cons step steps ih =>
    obtain ⟨hfailure, hended⟩ := action_of_closed hclosed step
    simp only [runAll, hfailure, hended, ih, List.map_cons]

/-! ## A writer that takes commands -/

/-- A writer behind its first close. -/
def flushed (writer : Writer) : Writer :=
  { writer with sink := { writer.sink with flushes := writer.sink.flushes + 1 }, closed := true }

/-- The first close fails if the flush does, and closes the writer anyway. -/
theorem close_of_open (hopen : writer.closed = false) :
    failure (close writer) = failure writer.sink.flush ∧
      ended (close writer) = writer.flushed := by
  obtain ⟨⟨bytes, capacity, flushFails, flushes⟩, closed, log⟩ := writer
  obtain rfl : closed = false := hopen
  cases flushFails <;> exact ⟨rfl, rfl⟩

/-- Writing does not change how a flush goes. -/
theorem failure_flush_written (writer : Writer) (commands : List Command) :
    failure (writer.written commands).sink.flush = failure writer.sink.flush := by
  obtain ⟨⟨bytes, capacity, flushFails, flushes⟩, closed, log⟩ := writer
  cases flushFails <;> rfl

/-- A run of a writer that takes commands: it writes the commands before the first close, and a
close flushes once. -/
theorem runAll_of_open (hopen : writer.Open) (steps : List Step) :
    runAll steps writer =
      (failuresOf (failure writer.sink.flush) steps,
        if .close ∈ steps then (writer.written (beforeClose steps)).flushed
        else writer.written (beforeClose steps)) := by
  induction steps generalizing writer with
  | nil => simp [runAll, failuresOf, beforeClose, written_nil]
  | cons step steps ih =>
    -- closing ends what is written; any other step writes its command and leaves the writer open
    cases hcommand : step.command? with
    | none =>
      obtain rfl := Step.command?_eq_none.1 hcommand
      obtain ⟨hfailure, hended⟩ := close_of_open hopen.notClosed
      have hclosed : writer.flushed.closed = true := rfl
      simp [runAll, failuresOf, beforeClose, written_nil, Step.action, hfailure, hended,
        runAll_of_closed hclosed]
    | some command =>
      have hne := Step.ne_close hcommand
      have hfront : beforeClose (step :: steps) = command :: beforeClose steps := by
        simp [beforeClose, hne, hcommand]
      have haction : step.action writer = .ok () (writer.written [command]) := by
        rw [Step.action_of_command hcommand, hopen.write command]
      have hrest := ih (hopen.written [command])
      rw [failure_flush_written, ← written_append] at hrest
      simp only [runAll, haction, ended, failure, hrest, failuresOf, if_neg hne, hfront,
        List.mem_cons, hne.symm, false_or]
      rfl

end

/-! ## The law of all runs -/

theorem runAll_dispatched (steps : List Step) (writer : Writer) :
    runAll (steps.map Step.dispatched) writer = runAll steps writer := by
  induction steps generalizing writer with
  | nil => rfl
  | cons step steps ih => simp only [List.map_cons, runAll, Step.action_dispatched, ih]

/-- **Every run of a writer.** Over a sink without a limit, the output is a line for each command
before the first close; each step fails as `failuresOf` says; the sink is flushed once if there is a
close and never otherwise. Whether a command takes the dispatcher or its own method makes no
difference to any of this. -/
theorem runs_write_until_close (bytes : ByteArray) (flushFails : Bool) (flushes : Nat) (log : Log)
    (steps : List Step) :
    let sink : Sink := ⟨bytes, none, flushFails, flushes⟩
    let (failures, last) := runAll steps { sink, log }
    last.sink.bytes = bytes ++ (Syntax.lines (beforeClose steps)).toUTF8 ∧
      last.sink.flushes = flushes + (if .close ∈ steps then 1 else 0) ∧
      failures = failuresOf (failure sink.flush) steps ∧
      runAll (steps.map Step.dispatched) { sink, log } = (failures, last) := by
  intro sink
  have hopen : Writer.Open { sink, log } := ⟨rfl, rfl⟩
  have hrun := runAll_of_open hopen steps
  rw [runAll_dispatched, hrun]
  refine ⟨?_, ?_, rfl, rfl⟩
  · split <;> rfl
  · split <;> rfl

/-- A close that fails is a close: the commands behind it are refused, and it is not tried again. -/
example : failuresOf (some (.io .flushFailed)) [.push .constant 7, .close, .write .ret, .close] =
    [none, some (.io .flushFailed), some (.io .writerClosed), none] := rfl

end Jack.Vm.Writer
