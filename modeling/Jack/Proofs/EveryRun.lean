/-
What every run of the compiler keeps, whether it succeeds or fails.

A compiler that fails keeps the state it reached and can be run again, so a statement about
everything that was ever written has to hold of failed runs too. `Ends Q action` says that `Q`
relates the state before a run of an action, the error that the run ends with and the state
after it. What the steps keep, every action keeps that is composed of them (`Composed.ends`).

`Always R action` is the case in which the error does not matter. Few actions touch what a
compiler writes: those that emit, and those that take numbers for labels. A relation is `Steady`
if it is kept by everything but these last ones, that is by changes of what is read and known,
by notes, and by emitting commands that are no labels. Each rule of the grammar that emits no
label keeps every steady relation, and the rules around statements keep one that the statements
keep.
-/
import Jack.Proofs.Steps

set_option autoImplicit false

/-! ## Writing -/

namespace Jack.Vm

/-- A write adds to the end of a sink, as much as fits. -/
theorem Sink.write_cases (sink : Sink) (text : String) :
    ∃ added, sink.write text = .ok () { sink with bytes := sink.bytes ++ added } ∨
      sink.write text = .error (.io .sinkFull) { sink with bytes := sink.bytes ++ added } := by
  obtain ⟨bytes, capacity, flushFails, flushes⟩ := sink
  unfold Sink.write
  cases capacity with
  | none => exact ⟨_, .inl rfl⟩
  | some limit =>
    dsimp only
    split
    · exact ⟨_, .inl rfl⟩
    · exact ⟨_, .inr rfl⟩

namespace Writer

/-- A writer with more in its sink, and perhaps more in its log. -/
def Extends (writer reached : Writer) : Prop :=
  ∃ (added : ByteArray) (log : Log), reached =
    { writer with sink := { writer.sink with bytes := writer.sink.bytes ++ added }, log }

/-- A writer extends itself, by no bytes. -/
theorem Extends.refl (writer : Writer) : writer.Extends writer := by
  refine ⟨.empty, writer.log, ?_⟩
  rw [ByteArray.append_empty]

/-- A command is written, or does not fit, or comes too late. -/
theorem write_cases (writer : Writer) (command : Command) :
    ∃ reached, writer.Extends reached ∧
      (writer.write command = .ok () reached ∨
        writer.write command = .error (.io .sinkFull) reached ∨
          writer.write command = .error (.io .writerClosed) reached) := by
  obtain ⟨sink, closed, log⟩ := writer
  cases closed with
  | true => exact ⟨_, .refl _, .inr (.inr (write_closed command sink log))⟩
  | false =>
    obtain ⟨added, hwrite | hwrite⟩ := sink.write_cases (command.render ++ "\n")
    · refine ⟨_, ⟨added, log.push (.writing command.render), rfl⟩, .inl ?_⟩
      simp [write_eq, writeLine, hwrite]
    · refine ⟨_, ⟨added, log.push (.writing command.render), rfl⟩, .inr (.inl ?_)⟩
      simp [write_eq, writeLine, hwrite]

end Writer

end Jack.Vm

namespace Jack.Compiler

open Vm (Command)

variable {α β : Type}

/-! ## How runs end -/

/-- The state that an action ends in. -/
def after : EStateM.Result Error Compiler α → Compiler
  | .ok _ compiler => compiler
  | .error _ compiler => compiler

/-- The error that an action ends with, if it fails. -/
def raised : EStateM.Result Error Compiler α → Option Error
  | .ok _ _ => none
  | .error error _ => some error

/-- An action that ends with an error failed with it, in the state that it ends in. -/
theorem eq_error_of_raised {result : EStateM.Result Error Compiler α} {error : Error}
    (h : raised result = some error) : result = .error error (after result) := by
  cases result with
  | ok value reached => cases h
  | error met reached =>
    cases h
    rfl

/-! ## Emitting and deferring -/

/-- Emitting a command captures it or writes it, and changes nothing else. -/
theorem after_emit (compiler : Compiler) (command : Command) :
    ∃ (writer : Vm.Writer) (deferred : List (List Command)),
      after (emit command compiler) = { compiler with writer, deferred } ∧
      compiler.writer.Extends writer ∧ deferred.length = compiler.deferred.length ∧
      raised (emit command compiler) ∈ [none, some (.io .sinkFull), some (.io .writerClosed)] := by
  obtain ⟨lexer, writer, symbols, current, className, subroutineName, labels, deferred⟩ := compiler
  cases deferred with
  -- captured: the writer is not touched
  | cons captured outer => exact ⟨writer, _, rfl, .refl writer, rfl, by simp [raised, emit]⟩
  -- written: the writer says what can go wrong
  | nil =>
    obtain ⟨reached, hextends, hwrite | hwrite | hwrite⟩ := writer.write_cases command
    all_goals
      refine ⟨reached, [], ?_, hextends, rfl, ?_⟩
      · simp [emit, hwrite, after]
      · simp [emit, hwrite, raised]

/-- The state in which a deferred action runs. -/
def opened (compiler : Compiler) : Compiler :=
  { compiler with deferred := [] :: compiler.deferred }

/-- A deferred action that succeeds hands over what stands in its list, which was filled from the
head, and closes the list. -/
theorem defer_of_ok {action : CompileM Unit} {compiler reached : Compiler} {value : Unit}
    (hrun : action compiler.opened = .ok value reached) :
    defer action compiler =
      .ok (reached.deferred.headD []).reverse
        { reached with deferred := reached.deferred.tail } := by
  unfold opened at hrun
  rw [defer, hrun]

/-- A deferred action that fails closes its list all the same, and what was captured is gone. -/
theorem defer_of_error {action : CompileM Unit} {compiler reached : Compiler} {error : Error}
    (hrun : action compiler.opened = .error error reached) :
    defer action compiler =
      .error error { reached with deferred := reached.deferred.tail } := by
  unfold opened at hrun
  rw [defer, hrun]

/-- A deferred action leaves everything as the action does, but its list. -/
theorem after_defer (action : CompileM Unit) (compiler : Compiler) :
    after (defer action compiler) =
      { after (action compiler.opened) with
        deferred := (after (action compiler.opened)).deferred.tail } := by
  cases hrun : action compiler.opened with
  | ok value reached =>
    rw [defer_of_ok hrun]
    rfl
  | error error reached =>
    rw [defer_of_error hrun]
    rfl

/-- A deferred action raises the errors of the action. -/
theorem raised_defer (action : CompileM Unit) (compiler : Compiler) :
    raised (defer action compiler) = raised (action compiler.opened) := by
  cases hrun : action compiler.opened with
  | ok value reached =>
    rw [defer_of_ok hrun]
    rfl
  | error error reached =>
    rw [defer_of_error hrun]
    rfl

/-! ## What runs keep -/

/-- A relation between the state before every run of an action, the error of the run and the
state after it. -/
def Ends (Q : Compiler → Option Error → Compiler → Prop) (action : CompileM α) : Prop :=
  ∀ compiler, Q compiler (raised (action compiler)) (after (action compiler))

/-- A relation that every step keeps, and that goes on along sequences. -/
structure KeptBySteps (Q : Compiler → Option Error → Compiler → Prop) : Prop where
  refl : ∀ compiler, Q compiler none compiler
  trans : ∀ {first middle last error}, Q first none middle → Q middle error last →
    Q first error last
  complain : ∀ (complaint : Complaint) compiler,
    Q compiler (some (complaint.error compiler.lexer.lineNumber)) compiler
  advance : Ends Q advance
  define : ∀ name type kind, Ends Q (define name type kind)
  startSubroutine : ∀ compiler : Compiler,
    Q compiler none { compiler with symbols := compiler.symbols.startSubroutine }
  nameSubroutine : ∀ (compiler : Compiler) (subroutineName : String),
    Q compiler none { compiler with subroutineName }
  nameClass : ∀ (compiler : Compiler) (className : String),
    Q compiler none { compiler with className }
  note : ∀ {event}, (∀ line, event ≠ LogEvent.writing line) → Ends Q (note event)
  emit : ∀ {command : Command}, command.labelName? = none → Ends Q (emit command)

/-- What the steps keep, and the actions of the base, every composed action keeps. -/
theorem Composed.ends {Q : Compiler → Option Error → Compiler → Prop}
    {Base : (α : Type) → CompileM α → Prop} (h : KeptBySteps Q)
    (hbase : ∀ (α : Type) (action : CompileM α), Base α action → Ends Q action)
    {action : CompileM α} (hcomposed : Composed Base action) : Ends Q action := by
  induction hcomposed with
  | base haction => exact hbase _ _ haction
  | pure value => exact fun compiler => h.refl compiler
  | @bind _ _ action next _ _ ihfirst ihnext =>
    intro compiler
    have hfirst := ihfirst compiler
    simp only [Bind.bind, EStateM.bind]
    -- the second action runs only if the first one succeeded, and then from where it ended
    cases hrun : action compiler with
    | ok value reached =>
      rw [hrun] at hfirst
      exact h.trans hfirst (ihnext value reached)
    | error error reached =>
      rw [hrun] at hfirst
      exact hfirst
  | look _ _ ih => exact fun compiler => ih compiler compiler
  | complain complaint => exact h.complain complaint
  | advance => exact h.advance
  | define name type kind => exact h.define name type kind
  | startSubroutine => exact h.startSubroutine
  | nameSubroutine subroutineName => exact fun compiler => h.nameSubroutine compiler subroutineName
  | nameClass className => exact fun compiler => h.nameClass compiler className
  | note hevent => exact h.note hevent
  | emit hplain => exact h.emit hplain

/-! ## What runs keep in any case -/

/-- A relation between the states before and after every run of an action. -/
def Always (R : Compiler → Compiler → Prop) (action : CompileM α) : Prop :=
  ∀ compiler, R compiler (after (action compiler))

/-- A relation that is kept unless a label is emitted or a number is taken for one. -/
structure Steady (R : Compiler → Compiler → Prop) : Prop where
  trans : ∀ {first middle last}, R first middle → R middle last → R first last
  still : ∀ {compiler reached}, reached.writer = compiler.writer →
    reached.labels = compiler.labels → reached.deferred = compiler.deferred → R compiler reached
  note : ∀ {event}, (∀ line, event ≠ LogEvent.writing line) → Always R (note event)
  emit : ∀ {command : Command}, command.labelName? = none → Always R (emit command)

section

variable {R : Compiler → Compiler → Prop} (h : Steady R)

include h

/-- A steady relation is kept by every step: pulls and declarations leave the writer, the labels and
the open lists as they are. -/
theorem Steady.keptBySteps : KeptBySteps fun compiler _ reached => R compiler reached where
  refl := fun _ => h.still rfl rfl rfl
  trans := h.trans
  complain := fun _ _ => h.still rfl rfl rfl
  advance := by
    intro compiler
    unfold advance
    split <;> exact h.still rfl rfl rfl
  define := by
    intro name type kind compiler
    unfold define
    split <;> exact h.still rfl rfl rfl
  startSubroutine := fun _ => h.still rfl rfl rfl
  nameSubroutine := fun _ _ => h.still rfl rfl rfl
  nameClass := fun _ _ => h.still rfl rfl rfl
  note := h.note
  emit := h.emit

/-- A steady relation goes through every composed action whose base keeps it. -/
theorem Steady.always {action : CompileM α} (hcomposed : Composed (fun _ => Always R) action) :
    Always R action :=
  hcomposed.ends h.keptBySteps fun _ _ haction => haction

/-! ## Rules -/

theorem always_unexpected (wanted : String) : Always R (unexpected wanted : CompileM α) :=
  h.always (composed_unexpected wanted)

theorem always_atSymbol (c : Char) : Always R (atSymbol c) := h.always (composed_atSymbol c)

theorem always_atKeyword (keyword : Keyword) : Always R (atKeyword keyword) :=
  h.always (composed_atKeyword keyword)

theorem always_advance : Always R advance := h.always .advance

theorem always_expectSymbol (c : Char) : Always R (expectSymbol c) :=
  h.always (composed_expectSymbol c)

/-- A rule between two symbols keeps what the rule keeps. -/
theorem always_between {rule : CompileM α} (hrule : Always R rule) (opening closing : Char) :
    Always R (between opening rule closing) :=
  h.always (composed_between (.base hrule) opening closing)

/-- A loop keeps what each of its rounds keeps. -/
theorem always_many {head : Token → Option α} {rule : α → CompileM Unit}
    (hrule : ∀ token found, head token = some found → Always R (rule found)) (budget : Nat) :
    Always R (many head rule budget) :=
  h.always (composed_many (fun token found hhead => .base (hrule token found hhead)) budget)

theorem always_name : Always R name := h.always composed_name

theorem always_lookup (name : String) : Always R (lookup name) := h.always (composed_lookup name)

/-- Commands that are no labels keep every steady relation, in a row as well as alone. -/
theorem always_emitAll {commands : List Command}
    (hplain : ∀ command ∈ commands, command.labelName? = none) : Always R (emitAll commands) :=
  h.always (composed_emitAll fun command hmem => .emit (hplain command hmem))

theorem always_push (segment : Vm.Segment) (index : Int) : Always R (push segment index) :=
  h.emit rfl

theorem always_pop (segment : Vm.Segment) (index : Int) : Always R (pop segment index) :=
  h.emit rfl

theorem always_operation (op : Vm.Operation) : Always R (operation op) := h.emit rfl

/-- No expression emits a label, so the rule needs no assumption about what it is made of. -/
theorem always_expression (budget : Nat) : Always R (expression budget) :=
  h.always (composed_expression budget)

/-- A call emits no label. -/
theorem always_invocation (budget : Nat) : Always R (invocation budget) :=
  h.always (composed_invocation budget)

/-- A `return` emits no label. -/
theorem always_exit (budget : Nat) : Always R (exit budget) := h.always (composed_exit budget)

/-- A whole run keeps what its statements and the closing of the writer keep. -/
theorem always_compile (hstatements : ∀ budget, Always R (statements budget))
    (hclose : Always R close) : Always R compile := by
  intro compiler
  rw [compile_eq]
  exact h.always (composed_compileWithin (.base (hstatements _)) (.base hclose)) compiler

end

end Jack.Compiler
