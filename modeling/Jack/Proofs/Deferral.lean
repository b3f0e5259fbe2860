/-
Deferring an action and emitting its commands later comes to the same as running it.

The index of an assignment to an array element is compiled in front of the value, and its commands
are emitted behind it. Two runs are compared here from one state, one that writes its commands and
one that captures them. They go `Beside` each other: whatever a rule can look at or move is the
same in both, the first writer has the commands that the second run holds back, and the second
writer has nothing. Of the steps that rules are made of, only `emit` and `note` touch what differs,
so an action that is composed of steps ends beside itself (`Composed.capturable`), with the same
value or the same error.

What is left is the seam. The commands that a deferred action hands over are the ones that the
direct run wrote, so emitting them makes up for it, right away or in any later state.
-/
import Jack.Proofs.UniqueLabels

set_option autoImplicit false

namespace Jack

open Vm (Command)

/-! ## What writers wrote -/

namespace Vm.Writer

/-- Two writers that wrote the same: their sinks are the same, and so are the lines they wrote, in
order. They may tell more between these lines. -/
structure SameOutput (writer other : Writer) : Prop where
  sink : other.sink = writer.sink
  closed : other.closed = writer.closed
  lines : other.lines = writer.lines

variable {writer other third : Writer}

theorem SameOutput.refl (writer : Writer) : writer.SameOutput writer := ⟨rfl, rfl, rfl⟩

theorem SameOutput.symm (h : writer.SameOutput other) : other.SameOutput writer :=
  ⟨h.sink.symm, h.closed.symm, h.lines.symm⟩

theorem SameOutput.trans (h : writer.SameOutput other) (h' : other.SameOutput third) :
    writer.SameOutput third :=
  ⟨h'.sink.trans h.sink, h'.closed.trans h.closed, h'.lines.trans h.lines⟩

/-- Whether every command can be written is seen at the sink and at the mark that a writer is
closed, and these are the same. -/
theorem SameOutput.isOpen (h : writer.SameOutput other) (hopen : writer.Open) : other.Open where
  notClosed := h.closed.trans hopen.notClosed
  unlimited := by rw [h.sink, hopen.unlimited]

/-- Writing the same commands to both keeps them the same, whatever they have told in between. -/
theorem SameOutput.written (h : writer.SameOutput other) (commands : List Command) :
    (writer.written commands).SameOutput (other.written commands) where
  sink := by rw [Writer.written, Writer.written, h.sink]
  closed := h.closed
  lines := by rw [lines_written, lines_written, h.lines]

/-- What else is told does not count. -/
theorem SameOutput.noted (h : writer.SameOutput other) {event : LogEvent}
    (hevent : ∀ line, event ≠ .writing line) :
    writer.SameOutput { other with log := other.log.push event } where
  sink := h.sink
  closed := h.closed
  lines := by
    rw [← h.lines]
    cases event with
    | writing line => exact absurd rfl (hevent line)
    | _ => simp [Writer.lines, LogEvent.line?]

end Vm.Writer

namespace Compiler

variable {α β : Type} {base : Vm.Writer} {commands : List Command}
  {compiler direct captured : Compiler}

/-- A writer stays open, whether the commands were written or captured. -/
theorem writer_open_emitted (hopen : compiler.writer.Open) (commands : List Command) :
    (compiler.emitted commands).writer.Open := by
  unfold emitted
  split
  · exact hopen.written commands
  · exact hopen

/-- A row of commands is emitted in one go, since none of them can fail while the writer is open. -/
theorem emitAll_eq (hopen : compiler.writer.Open) (commands : List Command) :
    emitAll commands compiler = .ok () (compiler.emitted commands) := by
  induction commands generalizing compiler with
  | nil =>
    rw [emitted_nil]
    rfl
  | cons command rest ih =>
    rw [emitAll, bind_ok (emit_eq hopen command), ih (writer_open_emitted hopen _),
      ← emitted_append, List.singleton_append]

/-- Where no list is open, what is emitted is written. -/
theorem emitted_of_idle (hidle : compiler.deferred = []) (commands : List Command) :
    compiler.emitted commands = { compiler with writer := compiler.writer.written commands } := by
  rw [emitted, hidle]

theorem emitAll_of_idle (hidle : compiler.deferred = []) (hopen : compiler.writer.Open)
    (commands : List Command) : emitAll commands compiler =
      .ok () { compiler with writer := compiler.writer.written commands } := by
  rw [emitAll_eq hopen, emitted_of_idle hidle]

/-! ## Two runs -/

/-- Two states, one of a run that writes its commands and one of a run that captures them. Both
began with the same writer; what they have put out since then are the given commands. -/
structure Beside (base : Vm.Writer) (commands : List Command) (direct captured : Compiler) :
    Prop where
  state : captured = { direct with writer := captured.writer, deferred := [commands.reverse] }
  idle : direct.deferred = []
  written : (base.written commands).SameOutput direct.writer
  silent : base.SameOutput captured.writer

/-- A rule cannot tell the two runs apart: all it can look at is the same in both. -/
theorem Beside.sameView (h : Beside base commands direct captured) : SameView direct captured := by
  rw [h.state]
  exact ⟨rfl, rfl, rfl, rfl⟩

/-- Two runs that end beside each other, with the same value or the same error. -/
inductive EndBeside (base : Vm.Writer) :
    EStateM.Result Error Compiler α → EStateM.Result Error Compiler α → Prop where
  | ok {commands : List Command} {direct captured : Compiler} (value : α)
      (h : Beside base commands direct captured) :
      EndBeside base (.ok value direct) (.ok value captured)
  | error {commands : List Command} {direct captured : Compiler} (error : Error)
      (h : Beside base commands direct captured) :
      EndBeside base (.error error direct) (.error error captured)

/-- An action whose commands can be captured: two runs that begin beside each other end so. -/
def Capturable (base : Vm.Writer) (action : CompileM α) : Prop :=
  ∀ {commands : List Command} {direct captured : Compiler}, Beside base commands direct captured →
    EndBeside base (action direct) (action captured)

/-! ## Steps -/

theorem capturable_pure (value : α) : Capturable base (pure value) := fun h => .ok value h

/-- One action after the other. The commands that the first one put out are part of where the second
one begins, so both runs are still beside each other there. -/
theorem Capturable.bind {action : CompileM α} {next : α → CompileM β}
    (hfirst : Capturable base action) (hnext : ∀ value, Capturable base (next value)) :
    Capturable base (action >>= next) := by
  intro commands direct captured h
  have hends := hfirst h
  simp only [Bind.bind, EStateM.bind]
  generalize action direct = result, action captured = result' at hends
  cases hends with
  | ok value hreached => exact hnext value hreached
  | error error hreached => exact .error error hreached

/-- An action that decides by what it sees decides the same in both runs. -/
theorem capturable_look {next : Compiler → CompileM α}
    (hview : ∀ {compiler other : Compiler}, SameView compiler other → next compiler = next other)
    (hnext : ∀ compiler, Capturable base (next compiler)) : Capturable base (get >>= next) := by
  intro commands direct captured h
  -- what both runs see is the same, so they go on with the same action
  rw [get_bind, get_bind, ← hview h.sameView]
  exact hnext direct h

/-- A result with another writer and other captured commands in its state. -/
def onOutput (writer : Vm.Writer) (deferred : List (List Command)) :
    EStateM.Result Error Compiler α → EStateM.Result Error Compiler α
  | .ok value compiler => .ok value { compiler with writer, deferred }
  | .error error compiler => .error error { compiler with writer, deferred }

/-- An action that has nothing to do with the output. The line of a complaint is that of the lexer,
so complaints are among these. -/
def Mute (action : CompileM α) : Prop :=
  ∀ (compiler : Compiler) (writer : Vm.Writer) (deferred : List (List Command)),
    action { compiler with writer, deferred } = onOutput writer deferred (action compiler)

/-- A result that says nothing about the output can be given the output of either run. -/
theorem Beside.endBeside (h : Beside base commands direct captured)
    (result : EStateM.Result Error Compiler α) :
    EndBeside base (onOutput direct.writer [] result)
      (onOutput captured.writer [commands.reverse] result) := by
  cases result with
  | ok value reached => exact .ok value ⟨rfl, rfl, h.written, h.silent⟩
  | error error reached => exact .error error ⟨rfl, rfl, h.written, h.silent⟩

/-- An action that has nothing to do with the output does the same in both runs. -/
theorem Mute.capturable {action : CompileM α} (hmute : Mute action) :
    Capturable base action := by
  intro commands direct captured h
  have hhere : action direct = onOutput direct.writer [] (action direct) := by
    rw [← hmute direct direct.writer [], ← h.idle]
  have hthere : action captured = onOutput captured.writer [commands.reverse] (action direct) := by
    rw [← hmute direct, ← h.state]
  -- both results are one result, with the output of the run
  have hends := h.endBeside (action direct)
  rwa [← hhere, ← hthere] at hends

theorem mute_advance : Mute advance := by
  intro compiler writer deferred
  unfold advance
  dsimp only
  cases compiler.lexer.next <;> rfl

theorem mute_define (name type : String) (kind : VarKind) : Mute (define name type kind) := by
  intro compiler writer deferred
  unfold define
  dsimp only
  cases SymbolTable.declare name type kind compiler.symbols <;> rfl

/-- Telling something that is not a line adds to neither output. -/
theorem capturable_note {event : LogEvent} (hevent : ∀ line, event ≠ .writing line) :
    Capturable base (note event) := by
  intro commands direct captured h
  have hwritten := h.written.noted hevent
  have hsilent := h.silent.noted hevent
  rw [h.state]
  exact .ok () ⟨rfl, h.idle, hwritten, hsilent⟩

/-- A command is written in one run and captured in the other. -/
theorem capturable_emit (hopen : base.Open) (command : Command) :
    Capturable base (emit command) := by
  intro commands direct captured h
  have hdirect : direct.writer.Open := h.written.isOpen (hopen.written commands)
  have hcaptured : captured.writer.Open := h.silent.isOpen hopen
  -- commands are captured last one first
  have hcaptures : captured.emitted [command] =
      { captured with deferred := [(commands ++ [command]).reverse] } := by
    have hheld : captured.deferred = [commands.reverse] := by rw [h.state]
    rw [emitted, hheld, List.reverse_append]
  have hwritten := h.written.written [command]
  rw [← Vm.Writer.written_append] at hwritten
  rw [emit_eq hdirect, emit_eq hcaptured, emitted_of_idle h.idle, hcaptures]
  exact .ok () ⟨by rw [h.state], h.idle, hwritten, h.silent⟩

/-- **Capturing.** What is put together from steps can be captured. -/
theorem Composed.capturable (hopen : base.Open) {action : CompileM α}
    (h : Composed (fun _ _ => False) action) : Capturable base action := by
  induction h with
  | base hfalse => exact hfalse.elim
  | pure value => exact capturable_pure value
  | bind _ _ ihfirst ihnext => exact ihfirst.bind ihnext
  | look hview _ ih => exact capturable_look hview ih
  | complain | startSubroutine | nameSubroutine | nameClass =>
    exact Mute.capturable fun _ _ _ => rfl
  | advance => exact mute_advance.capturable
  | define name type kind => exact (mute_define name type kind).capturable
  | note hevent => exact capturable_note hevent
  | emit => exact capturable_emit hopen _

/-! ## Deferring -/

/-- What a deferred action left behind, next to a direct run of the action from the same state. -/
structure Withheld (compiler direct reached : Compiler) : Prop where
  /-- Everything but the output went as in the direct run: the lexer, the token ahead, the symbol
  table, the counter of labels. -/
  moved : reached = { direct with writer := reached.writer }
  /-- Nothing was written. -/
  silent : compiler.writer.SameOutput reached.writer
  /-- Nothing stays captured, and no list is left open for commands. -/
  deferred : reached.deferred = compiler.deferred

/-- What a deferred action left behind that handed over its commands. -/
structure Postponed (compiler direct : Compiler) (commands : List Command) (reached : Compiler) :
    Prop extends Withheld compiler direct reached where
  /-- The direct run wrote the commands, each once and in order. -/
  written : (compiler.writer.written commands).SameOutput direct.writer
  /-- Emitting the commands makes up for it. -/
  replayed : ∃ replayed, emitAll commands reached = .ok () replayed ∧
    replayed = { direct with writer := replayed.writer } ∧
    direct.writer.SameOutput replayed.writer
  /-- So it does later, whatever was written meanwhile: the bytes that are added are those that the
  direct run added, and nothing else is changed. -/
  later : ∀ behind : Compiler, behind.deferred = [] → behind.writer.Open →
    emitAll commands behind = .ok () { behind with writer := behind.writer.written commands } ∧
      ∃ added, direct.writer.sink.bytes = compiler.writer.sink.bytes ++ added ∧
        (behind.writer.written commands).sink.bytes = behind.writer.sink.bytes ++ added

/-- What remains when the list of a deferred action is closed that ran beside a direct run. -/
theorem Beside.withheld (h : Beside compiler.writer commands direct captured)
    (hidle : compiler.deferred = []) :
    Withheld compiler direct { captured with deferred := captured.deferred.tail } where
  moved := by
    have hnone := h.idle
    rw [h.state]
    obtain ⟨lexer, writer, symbols, current, className, subroutineName, labels, deferred⟩ := direct
    rw [show deferred = [] from hnone]
    rfl
  silent := h.silent
  deferred := by
    rw [h.state, hidle]
    rfl

/-- The seam. When the list is closed, the state is that of the direct run but for the writer, and
the commands in the list are all that the writer lacks. -/
theorem Beside.postponed (h : Beside compiler.writer commands direct captured)
    (hidle : compiler.deferred = []) (hopen : compiler.writer.Open) :
    Postponed compiler direct commands { captured with deferred := captured.deferred.tail } := by
  have hwithheld := h.withheld hidle
  generalize { captured with deferred := captured.deferred.tail } = reached at hwithheld
  have hreplay := emitAll_of_idle (hwithheld.deferred.trans hidle) (hwithheld.silent.isOpen hopen)
    commands
  refine ⟨hwithheld, h.written, ⟨_, hreplay, ?_, ?_⟩, ?_⟩
  · rw [hwithheld.moved]
  -- nothing was written while the commands were captured, so they come behind the same bytes
  · exact h.written.symm.trans (hwithheld.silent.written commands)
  · intro behind hbehind hopenBehind
    refine ⟨emitAll_of_idle hbehind hopenBehind commands, (Syntax.lines commands).toUTF8, ?_, rfl⟩
    rw [h.written.sink]
    rfl

/-- An action without labels, deferred and run directly. -/
theorem defer_beside {action : CompileM Unit} (haction : Composed (fun _ _ => False) action)
    (hidle : compiler.deferred = []) (hopen : compiler.writer.Open) :
    match action compiler with
    | .ok _ direct => ∃ commands reached, defer action compiler = .ok commands reached ∧
        Postponed compiler direct commands reached
    | .error error direct => ∃ reached, defer action compiler = .error error reached ∧
        Withheld compiler direct reached := by
  have hstart : Beside compiler.writer [] compiler compiler.opened := by
    refine ⟨by rw [opened, hidle]; rfl, hidle, ?_, .refl _⟩
    rw [Vm.Writer.written_nil]
    exact .refl _
  have hends := haction.capturable hopen hstart
  generalize action compiler = result, hrun : action compiler.opened = result' at hends
  cases hends with
  | @ok commands direct captured value h =>
    -- the list was filled from its head, and is handed over the right way round
    have hcommands : (captured.deferred.headD []).reverse = commands := by
      rw [h.state, List.headD_cons, List.reverse_reverse]
    refine ⟨commands, _, ?_, h.postponed hidle hopen⟩
    rw [defer_of_ok hrun, hcommands]
  | error error h => exact ⟨_, defer_of_error hrun, h.withheld hidle⟩

/-- **Deferral is transparent.** From a state in which nothing is captured and every command can be
written, an index in brackets is deferred as it is run: it succeeds or fails alike, with the same
error, and moves on alike. Deferred it writes nothing; its commands, emitted later, are what the
direct run wrote, and if it fails there are none. -/
theorem deferral_transparent (budget : Nat) {compiler : Compiler} (hidle : compiler.deferred = [])
    (hopen : compiler.writer.Open) :
    match between '[' (expression budget) ']' compiler with
    | .ok _ direct => ∃ commands reached,
        defer (between '[' (expression budget) ']') compiler = .ok commands reached ∧
          Postponed compiler direct commands reached
    | .error error direct => ∃ reached,
        defer (between '[' (expression budget) ']') compiler = .error error reached ∧
          Withheld compiler direct reached :=
  defer_beside (composed_between (composed_expression budget) '[' ']') hidle hopen

/-- A compiler in front of the index `[1 + 2]`. -/
def indexed : Compiler where
  lexer := { lines := [], queue := [⟨1, ['1']⟩, ⟨1, ['+']⟩, ⟨1, ['2']⟩, ⟨1, [']']⟩] }
  writer := {}
  current := some (.symbol '[')

/-- Captured and run directly, the index `[1 + 2]` comes to the same three commands. -/
theorem deferral_transparent_indexed : ∃ direct captured,
    between '[' (expression 2) ']' indexed = .ok () direct ∧
    defer (between '[' (expression 2) ']') indexed =
      .ok [.push .constant 1, .push .constant 2, .operation .add] captured ∧
    Postponed indexed direct [.push .constant 1, .push .constant 2, .operation .add] captured := by
  have htransparent := @deferral_transparent 2 indexed rfl ⟨rfl, rfl⟩
  have hdirect : ∃ direct, between '[' (expression 2) ']' indexed = .ok () direct := ⟨_, rfl⟩
  have hcaptured : ∃ captured, defer (between '[' (expression 2) ']') indexed =
      .ok [.push .constant 1, .push .constant 2, .operation .add] captured := ⟨_, rfl⟩
  obtain ⟨direct, hdirect⟩ := hdirect
  obtain ⟨captured, hcaptured⟩ := hcaptured
  rw [hdirect] at htransparent
  obtain ⟨commands, reached, hdefer, hpostponed⟩ := htransparent
  rw [hcaptured] at hdefer
  cases hdefer
  exact ⟨direct, captured, hdirect, hcaptured, hpostponed⟩

end Compiler

end Jack
