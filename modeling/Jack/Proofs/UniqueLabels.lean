/-
No label is written twice, and every jump finds its label.

The first half is about every run, failed ones included. A compiler is `Sound` if the labels it
wrote are different and have numbers below its counter. A rule may add labels with numbers that
it takes itself, and besides those only names that were set aside for it (`Writes`): a loop or
conditional takes a number, sets aside its own names, and everything inside it writes labels
with later numbers. So whatever a failed run left behind, the next one begins above it.

The commands of an index are captured and emitted later. They never hold a label, because an
expression keeps every relation that is steady (`Quiet` is the one for captured commands).

The second half is about accepted classes. Their code consists of blocks, jumps stay inside
their block, and a name has one label.
-/
import Jack.Proofs.EveryRun
import Jack.Proofs.StackDiscipline

set_option autoImplicit false

namespace Jack

open Syntax (LabelTag Numbered)
open Vm (Command)

/-! ## Lines that were written -/

/-- The line that an event tells of. -/
def LogEvent.line? : LogEvent → Option String
  | .writing line => some line
  | _ => none

namespace Vm

/-- The name of the label that a line sets. -/
def labelOf? (line : String) : Option String :=
  match line.toList with
  | 'l' :: 'a' :: 'b' :: 'e' :: 'l' :: ' ' :: name => some (String.ofList name)
  | _ => none

theorem labelOf?_render (command : Command) : labelOf? command.render = command.labelName? := by
  cases command with
  | operation op => cases op <;> rfl
  | _ => simp [labelOf?, Command.render, Command.labelName?]

namespace Writer

/-- The lines that a writer wrote, in order. -/
def lines (writer : Writer) : List String := writer.log.toList.filterMap LogEvent.line?

/-- The names of the labels that a writer wrote, in order. -/
def labelNames (writer : Writer) : List String := writer.lines.filterMap labelOf?

/-- The sink has no limit, and what it holds are the lines that were written. -/
structure Whole (writer : Writer) : Prop where
  unlimited : writer.sink.capacity = none
  bytes : writer.sink.bytes = (String.join (writer.lines.map (· ++ "\n"))).toUTF8

/-- The lines of commands stand behind those that were written before. -/
theorem lines_written (writer : Writer) (commands : List Command) :
    (writer.written commands).lines = writer.lines ++ commands.map Command.render := by
  simp [lines, written, List.filterMap_map, Function.comp_def, LogEvent.line?]

theorem labelNames_written (writer : Writer) (command : Command) :
    (writer.written [command]).labelNames = writer.labelNames ++ command.labelName?.toList := by
  rw [labelNames, lines_written, List.filterMap_append, labelNames]
  cases hname : command.labelName? <;> simp [labelOf?_render, hname]

theorem Whole.written {writer : Writer} (hwhole : writer.Whole) (command : Command) :
    (writer.written [command]).Whole where
  unlimited := hwhole.unlimited
  bytes := by
    rw [lines_written, List.map_append, String.join_append]
    simp [Writer.written, Syntax.lines, hwhole.bytes]

end Writer

end Vm

namespace Compiler

variable {α β : Type} {compiler middle reached : Compiler} {own others : List String}

/-- A command is emitted unless the writer is closed. -/
theorem emit_cases (hwhole : compiler.writer.Whole) (command : Command) :
    emit command compiler = .ok () (compiler.emitted [command]) ∨
      ∃ error, emit command compiler = .error error compiler := by
  by_cases hclosed : compiler.writer.closed = false
  · exact .inl (emit_eq ⟨hclosed, hwhole.unlimited⟩ command)
  · obtain ⟨lexer, ⟨sink, closed, log⟩, symbols, current, className, subroutineName, labels,
      deferred⟩ := compiler
    obtain rfl : closed = true := by simpa using hclosed
    cases deferred with
    | nil => exact .inr ⟨.io .writerClosed, by rw [emit, Vm.Writer.write_closed]⟩
    | cons captured outer => exact .inl rfl

/-! ## Captured commands -/

/-- No captured command is a label. -/
def Plain (compiler : Compiler) : Prop :=
  ∀ captured ∈ compiler.deferred, ∀ command ∈ captured, command.labelName? = none

/-- Nothing happened to labels, and what was captured has none. -/
structure SameLabels (compiler reached : Compiler) : Prop where
  whole : reached.writer.Whole
  labels : reached.labels = compiler.labels
  written : reached.writer.labelNames = compiler.writer.labelNames
  deferred : reached.deferred.length = compiler.deferred.length
  plain : compiler.Plain → reached.Plain

/-- A step that writes no label and captures none. -/
def Quiet (compiler reached : Compiler) : Prop :=
  compiler.writer.Whole → SameLabels compiler reached

theorem SameLabels.of_lines (hwhole : compiler.writer.Whole)
    (hsink : reached.writer.sink.bytes = compiler.writer.sink.bytes)
    (hcapacity : reached.writer.sink.capacity = compiler.writer.sink.capacity)
    (hlines : reached.writer.lines = compiler.writer.lines)
    (hlabels : reached.labels = compiler.labels)
    (hdeferred : reached.deferred = compiler.deferred) : SameLabels compiler reached where
  whole := ⟨by rw [hcapacity, hwhole.unlimited], by rw [hsink, hlines, hwhole.bytes]⟩
  labels := hlabels
  written := by rw [Vm.Writer.labelNames, hlines, Vm.Writer.labelNames]
  deferred := by rw [hdeferred]
  plain := by
    unfold Plain
    rw [hdeferred]
    exact id

/-- A command that is no label goes to the sink or to the commands captured last. -/
theorem SameLabels.emitted (hwhole : compiler.writer.Whole) {command : Command}
    (hcommand : command.labelName? = none) :
    SameLabels compiler (compiler.emitted [command]) := by
  unfold Compiler.emitted
  split
  · refine ⟨hwhole.written command, rfl, ?_, rfl, id⟩
    rw [Vm.Writer.labelNames_written, hcommand, Option.toList_none, List.append_nil]
  · rename_i captured outer hdeferred
    refine ⟨hwhole, rfl, rfl, by rw [hdeferred]; rfl, ?_⟩
    intro hplain
    unfold Plain at hplain ⊢
    rw [hdeferred, List.forall_mem_cons] at hplain
    refine List.forall_mem_cons.2 ⟨?_, hplain.2⟩
    intro other hmem
    rcases List.mem_append.1 hmem with hnew | hold
    · rw [List.mem_singleton.1 hnew, hcommand]
    · exact hplain.1 other hold

theorem steady_quiet : Steady Quiet where
  trans := by
    intro first middle last h h' hwhole
    have hfirst := h hwhole
    have hrest := h' hfirst.whole
    exact ⟨hrest.whole, hrest.labels.trans hfirst.labels, hrest.written.trans hfirst.written,
      hrest.deferred.trans hfirst.deferred, fun hplain => hrest.plain (hfirst.plain hplain)⟩
  still := by
    intro compiler reached hwriter hlabels hdeferred hwhole
    exact .of_lines hwhole (by rw [hwriter]) (by rw [hwriter]) (by rw [hwriter]) hlabels hdeferred
  note := by
    intro event hevent compiler hwhole
    refine .of_lines hwhole rfl rfl ?_ rfl rfl
    cases event with
    | writing line => exact absurd rfl (hevent line)
    | _ => simp [note, Vm.Writer.note, after, Vm.Writer.lines, LogEvent.line?]
  emit := by
    intro command hplain compiler hwhole
    rcases emit_cases hwhole command with hemit | ⟨error, hemit⟩
    · rw [hemit]
      exact .emitted hwhole hplain
    · rw [hemit]
      exact ⟨hwhole, rfl, rfl, rfl, fun h => h⟩

/-! ## Labels that a run adds -/

/-- Nothing is captured, everything written is in the sink, and the labels written are
different and have numbers below the counter. -/
structure Sound (compiler : Compiler) : Prop where
  idle : compiler.deferred = []
  whole : compiler.writer.Whole
  numbered : Numbered compiler.writer.labelNames 0 compiler.labels

/-- Names that were set aside: they have numbers that were taken, and were not written. -/
def Reserved (own : List String) (compiler : Compiler) : Prop :=
  ∀ name ∈ own, name ∉ compiler.writer.labelNames ∧
    ∃ tag number, name = LabelTag.name tag number ∧ number < compiler.labels

/-- The labels that were added have names that were set aside, or new numbers. -/
structure Added (own : List String) (compiler reached : Compiler) : Prop where
  sound : reached.Sound
  labels_le : compiler.labels ≤ reached.labels
  names : ∀ name ∈ reached.writer.labelNames, name ∈ compiler.writer.labelNames ∨ name ∈ own ∨
    ∃ tag number, name = LabelTag.name tag number ∧ compiler.labels ≤ number

/-- A step that may write the labels set aside for it, and others with new numbers. -/
def Writes (own : List String) (compiler reached : Compiler) : Prop :=
  compiler.Sound → compiler.Reserved own → Added own compiler reached

theorem reserved_nil (compiler : Compiler) : compiler.Reserved [] :=
  fun _ hmem => absurd hmem List.not_mem_nil

/-- A quiet step writes none. -/
theorem SameLabels.added (h : SameLabels compiler reached) (hsound : compiler.Sound)
    (own : List String) : Added own compiler reached where
  sound :=
    { idle := by
        rw [← List.length_eq_zero_iff, h.deferred, hsound.idle]
        rfl
      whole := h.whole
      numbered := by
        rw [h.written, h.labels]
        exact hsound.numbered }
  labels_le := Nat.le_of_eq h.labels.symm
  names := by
    intro name hmem
    rw [h.written] at hmem
    exact .inl hmem

theorem Writes.weaken (h : Writes own compiler reached) (others : List String) :
    Writes (own ++ others) compiler reached := by
  intro hsound hreserved
  have hadded := h hsound fun name hmem => hreserved name (List.mem_append_left _ hmem)
  refine ⟨hadded.sound, hadded.labels_le, ?_⟩
  intro name hmem
  rcases hadded.names name hmem with hold | hown | hnew
  · exact .inl hold
  · exact .inr (.inl (List.mem_append_left _ hown))
  · exact .inr (.inr hnew)

/-- What was set aside for later is still unwritten. -/
theorem Added.reserved (h : Added own compiler reached) (hreserved : compiler.Reserved others)
    (hdisjoint : own.Disjoint others) : reached.Reserved others := by
  intro name hmem
  obtain ⟨hunwritten, tag, number, hname, htaken⟩ := hreserved name hmem
  refine ⟨?_, tag, number, hname, Nat.lt_of_lt_of_le htaken h.labels_le⟩
  intro hwritten
  rcases h.names name hwritten with hold | hown | ⟨other, count, hother, hnew⟩
  · exact hunwritten hold
  · exact hdisjoint hown hmem
  · -- a new number is not one that was taken before
    have hsame := (LabelTag.name_inj (hname.symm.trans hother)).2
    omega

theorem Writes.trans (h : Writes own compiler middle) (h' : Writes others middle reached)
    (hdisjoint : own.Disjoint others) : Writes (own ++ others) compiler reached := by
  intro hsound hreserved
  have hfirst := h hsound fun name hmem => hreserved name (List.mem_append_left _ hmem)
  have hothers : compiler.Reserved others :=
    fun name hmem => hreserved name (List.mem_append_right _ hmem)
  have hrest := h' hfirst.sound (hfirst.reserved hothers hdisjoint)
  refine ⟨hrest.sound, Nat.le_trans hfirst.labels_le hrest.labels_le, ?_⟩
  intro name hmem
  rcases hrest.names name hmem with hmiddle | hown | ⟨tag, number, hname, hnew⟩
  · rcases hfirst.names name hmiddle with hold | hown | hnew
    · exact .inl hold
    · exact .inr (.inl (List.mem_append_left _ hown))
    · exact .inr (.inr hnew)
  · exact .inr (.inl (List.mem_append_right _ hown))
  · exact .inr (.inr ⟨tag, number, hname, Nat.le_trans hfirst.labels_le hnew⟩)

theorem Quiet.writes (h : Quiet compiler reached) : Writes [] compiler reached :=
  fun hsound _ => (h hsound.whole).added hsound []

theorem steady_writes : Steady (Writes []) where
  trans := fun h h' => h.trans h' (List.disjoint_nil_left _)
  still := fun hwriter hlabels hdeferred => (steady_quiet.still hwriter hlabels hdeferred).writes
  note := fun hevent compiler => (steady_quiet.note hevent compiler).writes
  emit := fun hplain compiler => (steady_quiet.emit hplain compiler).writes

/-! ## Sequences -/

theorem writes_bind {action : CompileM α} {next : α → CompileM β} (h : Always (Writes own) action)
    (h' : ∀ value, Always (Writes others) (next value)) (hdisjoint : own.Disjoint others) :
    Always (Writes (own ++ others)) (action >>= next) := by
  intro compiler
  have hstep := h compiler
  simp only [bind, EStateM.bind]
  cases hrun : action compiler with
  | ok value reached =>
    rw [hrun] at hstep
    exact hstep.trans (h' value reached) hdisjoint
  | error error reached =>
    rw [hrun] at hstep
    exact hstep.weaken others

/-- A step that writes none of the names set aside leaves them to the rest. -/
theorem writes_then {action : CompileM α} {next : α → CompileM β} (h : Always (Writes []) action)
    (h' : ∀ value, Always (Writes own) (next value)) : Always (Writes own) (action >>= next) :=
  writes_bind h h' (List.disjoint_nil_left _)

/-- A label uses up the name that was set aside for it. -/
theorem writes_label (name : String) : Always (Writes [name]) (emit (.label name)) := by
  intro compiler hsound hreserved
  obtain ⟨hunwritten, tag, number, hname, htaken⟩ := hreserved name (List.mem_singleton_self _)
  rcases emit_cases hsound.whole (.label name) with hemit | ⟨error, hemit⟩
  · have hnames : (compiler.writer.written [.label name]).labelNames =
        compiler.writer.labelNames ++ [name] := Vm.Writer.labelNames_written _ _
    rw [hemit, after, emitted, hsound.idle]
    refine ⟨⟨rfl, hsound.whole.written _, ?_⟩, Nat.le_refl _, ?_⟩
    · rw [hnames]
      exact hsound.numbered.concat hunwritten ⟨tag, number, hname, Nat.zero_le _, htaken⟩
    · intro other hmem
      rw [hnames] at hmem
      rcases List.mem_append.1 hmem with hold | hnew
      · exact .inl hold
      · exact .inr (.inl hnew)
  · rw [hemit]
    exact ⟨hsound, Nat.le_refl _, fun _ hmem => .inl hmem⟩

/-- The first of the labels set aside for a conditional or loop, and then the rest. -/
theorem writes_label_then (tag : LabelTag) {tags : List LabelTag} (htag : tag ∉ tags)
    {number : Nat} {next : Unit → CompileM β}
    (hnext : ∀ value, Always (Writes (tags.map (·.name number))) (next value)) :
    Always (Writes ((tag :: tags).map (·.name number)))
      (emit (.label (tag.name number)) >>= next) := by
  apply writes_bind (writes_label (tag.name number)) hnext
  rw [List.singleton_disjoint]
  intro hmem
  obtain ⟨other, hother, hname⟩ := List.mem_map.1 hmem
  rw [(LabelTag.name_inj hname).1] at hother
  exact htag hother

/-- A number is taken, and labels with it are set aside. -/
theorem writes_freshLabel (tags : List LabelTag) {next : String → CompileM β}
    (hnext : ∀ number : Nat, Always (Writes (tags.map (·.name number))) (next (toString number))) :
    Always (Writes []) (freshLabel >>= next) := by
  intro compiler hsound _
  have hbelow : ∀ name ∈ compiler.writer.labelNames, ∃ tag number, name = LabelTag.name tag number ∧
      0 ≤ number ∧ number < compiler.labels := hsound.numbered.bounded
  have htaken : Sound { compiler with labels := compiler.labels + 1 } := by
    refine ⟨hsound.idle, hsound.whole, hsound.numbered.nodup, ?_⟩
    intro name hmem
    obtain ⟨tag, number, hname, hlow, hhigh⟩ := hbelow name hmem
    exact ⟨tag, number, hname, hlow, Nat.lt_succ_of_lt hhigh⟩
  -- the names of the new number are not written yet, since numbers below it made the written ones
  have hreserved : Reserved (tags.map (·.name compiler.labels))
      { compiler with labels := compiler.labels + 1 } := by
    intro name hmem
    obtain ⟨tag, -, rfl⟩ := List.mem_map.1 hmem
    refine ⟨?_, tag, compiler.labels, rfl, Nat.lt_succ_self _⟩
    intro hwritten
    obtain ⟨other, number, hname, -, hhigh⟩ := hbelow _ hwritten
    have hsame := (LabelTag.name_inj hname).2
    omega
  have hadded := hnext compiler.labels { compiler with labels := compiler.labels + 1 } htaken
    hreserved
  refine ⟨hadded.sound, Nat.le_trans (Nat.le_succ _) hadded.labels_le, ?_⟩
  intro name hmem
  -- a name is old, or of the number just taken, or of one that was taken later
  rcases hadded.names name hmem with hold | hown | ⟨tag, number, hname, hnew⟩
  · exact .inl hold
  · obtain ⟨tag, -, rfl⟩ := List.mem_map.1 hown
    exact .inr (.inr ⟨tag, compiler.labels, rfl, Nat.le_refl _⟩)
  · exact .inr (.inr ⟨tag, number, hname, Nat.le_of_succ_le hnew⟩)

/-- The commands that a quiet action captures are no labels. -/
theorem writes_defer {action : CompileM Unit} {next : List Command → CompileM β}
    (hquiet : Always Quiet action)
    (hnext : ∀ commands : List Command, (∀ command ∈ commands, command.labelName? = none) →
      Always (Writes []) (next commands)) :
    Always (Writes []) (defer action >>= next) := by
  intro compiler hsound hreserved
  have hinside := hquiet { compiler with deferred := [] :: compiler.deferred } hsound.whole
  have hplain := hinside.plain (by simp [Plain, hsound.idle])
  -- the action ends with one list of captured commands, its own
  have hdone : ∀ behind, after (action { compiler with deferred := [] :: compiler.deferred }) =
      behind → SameLabels compiler { behind with deferred := behind.deferred.tail } := by
    rintro behind rfl
    have hlength := hinside.deferred
    refine ⟨hinside.whole, hinside.labels, hinside.written, ?_, ?_⟩
    · rw [List.length_tail, hlength]
      rfl
    · intro _ captured hmem
      exact hplain captured (List.mem_of_mem_tail hmem)
  simp only [bind, EStateM.bind, defer]
  cases hrun : action { compiler with deferred := [] :: compiler.deferred } with
  | error error behind =>
    exact (hdone behind (by rw [hrun]; rfl)).added hsound []
  | ok value behind =>
    have hbehind := hdone behind (by rw [hrun]; rfl)
    rw [hrun] at hplain
    have hcommands : ∀ command ∈ (behind.deferred.headD []).reverse,
        command.labelName? = none := by
      intro command hmem
      cases hdeferred : behind.deferred with
      | nil => simp [hdeferred] at hmem
      | cons captured outer =>
        rw [hdeferred, List.headD_cons, List.mem_reverse] at hmem
        exact hplain captured (by rw [after, hdeferred]; exact List.mem_cons_self) command hmem
    have hfirst : Writes [] compiler { behind with deferred := behind.deferred.tail } :=
      fun hsound _ => hbehind.added hsound []
    exact hfirst.trans (hnext _ hcommands _) (List.disjoint_nil_left _) hsound hreserved

/-! ## Statements -/

theorem writes_assignment (budget : Nat) : Always (Writes []) (assignment budget) := by
  apply writes_then (always_advance steady_writes)
  intro _
  apply writes_then (always_name steady_writes)
  intro target
  apply writes_then (always_lookup steady_writes target)
  intro symbol
  apply writes_then (always_atSymbol steady_writes '[')
  intro indexed
  split
  · apply writes_defer (always_between steady_quiet (always_expression steady_quiet budget) '[' ']')
    intro index hindex
    apply writes_then (always_expectSymbol steady_writes '=')
    intro _
    apply writes_then (always_expression steady_writes budget)
    intro _
    apply writes_then (always_expectSymbol steady_writes ';')
    intro _
    apply writes_then (always_pop steady_writes _ _)
    intro _
    apply writes_then (always_push steady_writes _ _)
    intro _
    apply writes_then (always_emitAll steady_writes hindex)
    intro _
    apply writes_then (always_operation steady_writes _)
    intro _
    apply writes_then (always_pop steady_writes _ _)
    intro _
    exact writes_then (always_push steady_writes _ _) fun _ => always_pop steady_writes _ _
  · apply writes_then (always_expectSymbol steady_writes '=')
    intro _
    apply writes_then (always_expression steady_writes budget)
    intro _
    exact writes_then (always_expectSymbol steady_writes ';') fun _ => always_pop steady_writes _ _

/-- The part of a conditional or loop up to its first jump. -/
theorem writes_condition_then (budget : Nat) (target : String) {next : Unit → CompileM β}
    (hnext : ∀ value, Always (Writes own) (next value)) :
    Always (Writes own) (between '(' (expression budget) ')' >>= fun _ => operation .not >>= fun _ =>
      emit (.ifGoto target) >>= next) := by
  apply writes_then (always_between steady_writes (always_expression steady_writes budget) '(' ')')
  intro _
  apply writes_then (always_operation steady_writes _)
  intro _
  exact writes_then (steady_writes.emit rfl) hnext

theorem writes_loop {block : CompileM Unit} (hblock : Always (Writes []) block) (budget : Nat) :
    Always (Writes []) (loop block budget) := by
  apply writes_freshLabel [.whileStart, .whileEnd]
  intro number
  apply writes_then (always_advance steady_writes)
  intro _
  apply writes_label_then .whileStart (by decide)
  intro _
  apply writes_condition_then
  intro _
  apply writes_then (always_between steady_writes hblock '{' '}')
  intro _
  exact writes_then (steady_writes.emit rfl) fun _ => writes_label _

theorem writes_conditional {block : CompileM Unit} (hblock : Always (Writes []) block)
    (budget : Nat) : Always (Writes []) (conditional block budget) := by
  apply writes_freshLabel [.ifStart, .otherwise, .ifEnd]
  intro number
  apply writes_then (always_advance steady_writes)
  intro _
  apply writes_label_then .ifStart (by decide)
  intro _
  apply writes_condition_then
  intro _
  apply writes_then (always_between steady_writes hblock '{' '}')
  intro _
  apply writes_then (steady_writes.emit rfl)
  intro _
  apply writes_label_then .otherwise (by decide)
  intro _
  apply writes_then (always_atKeyword steady_writes .elseKw)
  intro another
  split
  · apply writes_then (always_advance steady_writes)
    intro _
    exact writes_then (always_between steady_writes hblock '{' '}') fun _ => writes_label _
  · exact writes_label _

theorem writes_statements (budget : Nat) : Always (Writes []) (statements budget) := by
  induction budget with
  | zero => exact always_unexpected steady_writes _
  | succ budget ih =>
    apply always_many steady_writes
    intro token kind _
    cases kind with
    | assignment => exact writes_assignment budget
    | conditional => exact writes_conditional ih budget
    | loop => exact writes_loop ih budget
    | invocation => exact always_invocation steady_writes budget
    | exit => exact always_exit steady_writes budget

/-! ## Runs -/

theorem writes_close : Always (Writes []) close := by
  intro compiler hsound _
  have hsame : SameLabels compiler (after (close compiler)) := by
    obtain ⟨lexer, ⟨⟨bytes, capacity, flushFails, flushes⟩, closed, log⟩, symbols, current,
      className, subroutineName, labels, deferred⟩ := compiler
    cases closed <;> cases flushFails <;> exact .of_lines hsound.whole rfl rfl rfl rfl rfl
  exact hsame.added hsound []

theorem writes_compile : Always (Writes []) compile :=
  always_compile steady_writes writes_statements writes_close

/-- A compiler after it was run a number of times, whether or not the runs failed. -/
def afterRuns : Nat → Compiler → Compiler
  | 0, compiler => compiler
  | times + 1, compiler => afterRuns times (after (compile compiler))

theorem Sound.afterRuns (hsound : compiler.Sound) (times : Nat) :
    (compiler.afterRuns times).Sound := by
  induction times generalizing compiler with
  | zero => exact hsound
  | succ times ih => exact ih (writes_compile compiler hsound (reserved_nil compiler)).sound

theorem sound_start (lexer : Lexer) (flushFails : Bool) :
    (start lexer { flushFails }).Sound where
  idle := rfl
  whole := ⟨rfl, rfl⟩
  numbered := .nil 0 0

end Compiler

/-! ## Jumps of an accepted class -/

namespace Syntax

open Vm (labelPosition_eq)

/-- A jump has one label, and both stand in one block. -/
theorem ClassTree.exists_label_of_jump {tree : ClassTree} (hscoped : tree.WellScoped)
    {position : Nat} {command : Command} {name : String}
    (hcommand : tree.code[position]? = some command) (hjump : command.jumpName? = some name) :
    ∃ target, tree.code[target]? = some (.label name) ∧
      (∀ other, tree.code[other]? = some (.label name) → other = target) ∧
      ∀ between, min position target ≤ between → between ≤ max position target →
        ∀ function count, tree.code[between]? ≠ some (.function function count) := by
  obtain ⟨before, subroutine, after, place, hsplit, rfl, hblock⟩ := tree.exists_block hcommand
  have hleveled := tree.leveled_block hscoped hsplit
  -- the `function` command of the block is no jump, so the jump stands behind it
  cases place with
  | zero =>
    cases hblock
    cases hjump
  | succ place =>
    rw [tree.subroutineCode_eq, List.getElem?_cons_succ] at hblock
    obtain ⟨hplace, hat⟩ := List.getElem?_eq_some_iff.1 hblock
    have hmem := List.mem_of_getElem? hblock
    obtain ⟨goal, hgoal, hlabel⟩ := List.getElem_of_mem
      (hleveled.jumpsInside command hmem name hjump)
    have htarget : tree.code[tree.blockPosition before + 1 + goal]? = some (.label name) := by
      rw [hleveled.codeAt.getElem? hgoal, List.getElem?_eq_getElem hgoal, hlabel]
    refine ⟨tree.blockPosition before + 1 + goal, htarget, ?_, ?_⟩
    · intro other hother
      have hfound := labelPosition_eq tree.nodup_labelNames hother
      rw [labelPosition_eq tree.nodup_labelNames htarget] at hfound
      exact (Option.some.inj hfound).symm
    · intro between hfrom hto function count hfunction
      obtain ⟨inside, rfl⟩ : ∃ inside, between = tree.blockPosition before + 1 + inside :=
        Nat.exists_eq_add_of_le (by omega)
      have hinside : inside < (tree.blockBody (labelsOf before) subroutine).length := by omega
      rw [hleveled.codeAt.getElem? hinside, List.getElem?_eq_getElem hinside] at hfunction
      have hnone := Vm.functionName?_of_level hleveled.level_ne_none (List.getElem_mem hinside)
      rw [Option.some.inj hfunction] at hnone
      cases hnone

end Syntax

/-- **Unique labels, local jumps.** However often a compiler over some bytes is run, failed
runs included, an unlimited sink holds the lines written and no two of them set the same label.
In the output of an accepted class every jump has one label, and no `function` command
between. -/
theorem labels_unique_and_jumps_local :
    (∀ (bytes : List UInt8) (flushFails : Bool) (times : Nat),
      ((Compiler.start (Lexer.ofBytes bytes) { flushFails }).afterRuns times).writer.Whole ∧
      ((Compiler.start (Lexer.ofBytes bytes) { flushFails }).afterRuns times).writer.labelNames.Nodup) ∧
    ∀ source text : String, compileText source = .ok text →
      ∃ tree : Syntax.ClassTree, HasTokens source tree.tokens ∧ text = Syntax.lines tree.code ∧
        ∀ (position : Nat) (command : Command) (name : String),
          tree.code[position]? = some command → command.jumpName? = some name →
            ∃ target : Nat, tree.code[target]? = some (.label name) ∧
              (∀ other, tree.code[other]? = some (.label name) → other = target) ∧
              ∀ between, min position target ≤ between → between ≤ max position target →
                ∀ function count, tree.code[between]? ≠ some (.function function count) := by
  constructor
  · intro bytes flushFails times
    have hsound := (Compiler.sound_start (Lexer.ofBytes bytes) flushFails).afterRuns times
    exact ⟨hsound.whole, hsound.numbered.nodup⟩
  · intro source text hok
    obtain ⟨tree, hscoped, htokens, htext⟩ := exists_tree_of_compileText hok
    exact ⟨tree, htokens, htext, fun position command name hcommand hjump =>
      tree.exists_label_of_jump hscoped hcommand hjump⟩

/-- Both jumps of a loop have their labels. -/
theorem jumps_local_of_filling :
    compileText fillingSource = .ok (Syntax.lines fillingTree.code) ∧
    fillingTree.code[6]? = some (.ifGoto "WHILE_END_0") ∧
    fillingTree.code[18]? = some (.goto "WHILE_START_0") ∧
    (∀ target, fillingTree.code[target]? = some (.label "WHILE_END_0") → target = 19) ∧
    (∀ target, fillingTree.code[target]? = some (.label "WHILE_START_0") → target = 1) := by
  have hcompiled : compileText fillingSource = .ok (Syntax.lines fillingTree.code) :=
    compileSource_of_yields fillingTree (by decide)
      (Lexer.yields_iff_results.2 hasTokens_fillingSource)
  obtain ⟨tree, htokens, -, hjumps⟩ := labels_unique_and_jumps_local.2 _ _ hcompiled
  obtain rfl : fillingTree = tree := htokens.tree_unique hasTokens_fillingSource
  have hforward : fillingTree.code[6]? = some (.ifGoto "WHILE_END_0") := by decide
  have hback : fillingTree.code[18]? = some (.goto "WHILE_START_0") := by decide
  obtain ⟨_, -, hend, -⟩ := hjumps 6 _ "WHILE_END_0" hforward rfl
  obtain ⟨_, -, hstart, -⟩ := hjumps 18 _ "WHILE_START_0" hback rfl
  refine ⟨hcompiled, hforward, hback, ?_, ?_⟩
  · intro target htarget
    rw [hend target htarget, hend 19 (by decide)]
  · intro target htarget
    rw [hstart target htarget, hstart 1 (by decide)]

end Jack
