/-
A compiler can be run again, whatever its last run did.

A run may stop at any step: at a token it does not want, at a name that is not declared, at a
sink that is full. What is promised of such a run is promised of every step of it. `Passes`
unfolds a run into its steps, those of a deferred action included, and `Grows` is what each of
them does: it adds to the end of the sink, and it leaves at most one list of captured commands
open. A list that was opened is closed on both ways out of the deferred action, so a run begins
and ends with none.

The writer is closed at one place only, behind the last token of the source. A compiler that got
there finds nothing to read when it is run again, and changes nothing (`compile_of_exhausted`).
-/
import Jack.Proofs.Pulls
import Jack.Proofs.UniqueLabels

set_option autoImplicit false

namespace Jack

open Vm (Command)

/-! ## Lines that cannot be read -/

theorem Lexeme.event_ne_io (lexeme : Lexeme) (cause : IoCause) :
    lexeme.event ≠ .error (.io cause) := by
  unfold Lexeme.event Lexeme.classify
  grind

theorem Lexeme.Fault.error_ne_io (fault : Lexeme.Fault) (number : Nat) (cause : IoCause) :
    fault.error number ≠ .io cause := by
  cases fault <;> exact Error.noConfusion

/-- A failure to read is told of a line that cannot be read. -/
theorem unreadable_of_mem_eventsFrom {source : Source} {inComment : Bool} {linesRead : Nat}
    {cause : IoCause} (hmem : .error (.io cause) ∈ eventsFrom inComment linesRead source) :
    .unreadable cause ∈ source := by
  fun_induction eventsFrom inComment linesRead source with
  | case1 => exact absurd hmem List.not_mem_nil
  | case2 inComment linesRead found rest ih =>
    rcases List.mem_cons.1 hmem with hfirst | hrest
    · cases hfirst
      exact List.mem_cons_self
    · exact List.mem_cons_of_mem _ (ih hrest)
  | case3 inComment linesRead characters rest fault hscan ih =>
    rcases List.mem_cons.1 hmem with hfirst | hrest
    · exact absurd (Event.error.inj hfirst).symm (fault.error_ne_io _ cause)
    · exact List.mem_cons_of_mem _ (ih hrest)
  | case4 inComment linesRead characters rest scan hscan ih =>
    rcases List.mem_append.1 hmem with hline | hrest
    · obtain ⟨text, -, hevent⟩ := List.mem_map.1 hline
      exact absurd hevent (Lexeme.event_ne_io _ cause)
    · exact List.mem_cons_of_mem _ (ih hrest)

namespace Lexer

/-- The lines that are left were cut from bytes: reading them fails for one cause only. -/
structure Readable (lexer : Lexer) : Prop where
  aligned : lexer.Aligned
  notText : ∀ cause, .unreadable cause ∈ lexer.lines → cause = .notText

theorem readable_ofBytes (bytes : List UInt8) : (ofBytes bytes).Readable := by
  refine ⟨aligned_ofBytes bytes, ?_⟩
  intro cause hmem
  obtain ⟨line, -, hline⟩ := List.mem_map.1 hmem
  unfold Source.decodeLine at hline
  split at hline <;> cases hline
  rfl

/-- Pulls fail for what the lines that are left hold. -/
theorem Readable.next {lexer : Lexer} (h : lexer.Readable) :
    (after (Lexer.next lexer)).Readable ∧
      ∀ cause reached, Lexer.next lexer = .error (.io cause) reached → cause = .notText := by
  obtain ⟨hcalled, haligned, hcases⟩ := pull_cases h.aligned
  obtain ⟨told, htells⟩ : ∃ told, Tells lexer told (lexer.called .advance) := by
    obtain ⟨event, -, -, htells⟩ | ⟨_, -, -, -, htells⟩ := hcases
    · exact ⟨_, htells⟩
    · exact ⟨_, htells⟩
  rw [← hcalled] at haligned htells
  constructor
  · refine ⟨haligned, ?_⟩
    intro cause hmem
    obtain ⟨read, hlines, -⟩ := htells.read
    apply h.notText
    rw [hlines]
    exact List.mem_append_right _ hmem
  · intro cause reached hnext
    rw [reply, reply, hnext] at hcases
    obtain ⟨event, -, hreply, htold⟩ | ⟨_, -, hreply, -, -⟩ := hcases
    · cases event with
      | token token line => cases hreply
      | error error =>
        cases hreply
        have hpending : .error (.io cause) ∈ lexer.pending := by
          rw [htold.pending]
          exact List.mem_append_left _ List.mem_cons_self
        -- an error of the input is told by a line and never by a lexeme
        rcases List.mem_append.1 hpending with hqueue | hlines
        · obtain ⟨lexeme, -, hevent⟩ := List.mem_map.1 hqueue
          exact absurd hevent (lexeme.event_ne_io cause)
        · exact h.notText cause (unreadable_of_mem_eventsFrom hlines)
    · cases hreply

end Lexer

namespace Compiler

variable {α β : Type} {compiler reached : Compiler}

/-! ## Runs, step by step -/

/-- The steps that runs consist of. -/
inductive Step : (α : Type) → CompileM α → Prop where
  | pure {α : Type} (value : α) : Step α (pure value)
  | get : Step Compiler get
  | throw {α : Type} (error : Error) : Step α (throw error)
  | advance : Step Unit advance
  | define (name type : String) (kind : VarKind) : Step Unit (define name type kind)
  | startSubroutine : Step PUnit
      (modify fun compiler => { compiler with symbols := compiler.symbols.startSubroutine })
  | nameSubroutine (subroutineName : String) : Step PUnit
      (modify fun compiler => { compiler with subroutineName })
  | nameClass (className : String) : Step PUnit
      (modify fun compiler => { compiler with className })
  | note (event : LogEvent) : Step Unit (note event)
  | emit (command : Command) : Step Unit (emit command)
  | freshLabel : Step String freshLabel
  | close : Step Unit close

/-- A relation holds between the states before and after each step of a run. A run that defers
an action opens a list, takes the steps of the action and closes the list. -/
inductive Passes (R : Compiler → Compiler → Prop) :
    {α : Type} → CompileM α → Compiler → Prop where
  | step {α : Type} {action : CompileM α} {compiler : Compiler} (hstep : Step α action)
      (h : R compiler (after (action compiler))) : Passes R action compiler
  | bind {α β : Type} {action : CompileM α} {next : α → CompileM β} {compiler : Compiler}
      (hfirst : Passes R action compiler)
      (hnext : ∀ value reached, action compiler = .ok value reached →
        Passes R (next value) reached) : Passes R (action >>= next) compiler
  | defer {action : CompileM Unit} {compiler : Compiler} (hopen : R compiler compiler.opened)
      (hinside : Passes R action compiler.opened)
      (hclose : R (after (action compiler.opened)) (after (defer action compiler))) :
      Passes R (defer action) compiler

/-- The runs of an action from states with at most a number of open lists: they go through steps
of a relation, and leave as many lists open as there were. -/
def Traced (R : Compiler → Compiler → Prop) (depth : Nat) (action : CompileM α) : Prop :=
  ∀ compiler : Compiler, compiler.deferred.length ≤ depth → Passes R action compiler ∧
    (after (action compiler)).deferred.length = compiler.deferred.length

section

variable {R : Compiler → Compiler → Prop} {depth : Nat}

theorem Traced.bind {action : CompileM α} {next : α → CompileM β} (hfirst : Traced R depth action)
    (hnext : ∀ value, Traced R depth (next value)) : Traced R depth (action >>= next) := by
  intro compiler hdepth
  obtain ⟨hpasses, hlength⟩ := hfirst compiler hdepth
  have hbehind : ∀ value reached, action compiler = .ok value reached →
      reached.deferred.length ≤ depth := by
    intro value reached hrun
    rw [hrun] at hlength
    exact hlength.trans_le hdepth
  refine ⟨.bind hpasses fun value reached hrun => (hnext value reached (hbehind _ _ hrun)).1, ?_⟩
  simp only [Bind.bind, EStateM.bind]
  cases hrun : action compiler with
  | ok value reached =>
    rw [hrun] at hlength
    exact (hnext value reached (hbehind _ _ hrun)).2.trans hlength
  | error error reached =>
    rw [hrun] at hlength
    exact hlength

/-- What every step does along the way, every composed action does. -/
theorem Composed.traced {Base : (α : Type) → CompileM α → Prop}
    (hstep : ∀ (α : Type) (action : CompileM α), Step α action → Traced R depth action)
    (hbase : ∀ (α : Type) (action : CompileM α), Base α action → Traced R depth action)
    {action : CompileM α} (hcomposed : Composed Base action) : Traced R depth action := by
  induction hcomposed with
  | base haction => exact hbase _ _ haction
  | pure value => exact hstep _ _ (.pure value)
  | bind _ _ ihfirst ihnext => exact ihfirst.bind ihnext
  | look _ _ ih => exact (hstep _ _ .get).bind ih
  | complain complaint =>
    have hline : Traced R depth lineNumber := (hstep _ _ .get).bind fun _ => hstep _ _ (.pure _)
    exact hline.bind fun _ => hstep _ _ (.throw _)
  | advance => exact hstep _ _ .advance
  | define name type kind => exact hstep _ _ (.define name type kind)
  | startSubroutine => exact hstep _ _ .startSubroutine
  | nameSubroutine subroutineName => exact hstep _ _ (.nameSubroutine subroutineName)
  | nameClass className => exact hstep _ _ (.nameClass className)
  | @note event _ => exact hstep _ _ (.note event)
  | @emit command _ => exact hstep _ _ (.emit command)

end

/-! ## What each step does -/

/-- The sink is added to, no flush is forgotten, and at most one list of captured commands is
open. -/
structure Grows (compiler reached : Compiler) : Prop where
  bytes : ∃ added, reached.writer.sink.bytes = compiler.writer.sink.bytes ++ added
  flushes : compiler.writer.sink.flushes ≤ reached.writer.sink.flushes
  buffers : reached.deferred.length ≤ 1

theorem Grows.of_writer (hwriter : reached.writer = compiler.writer)
    (hbuffers : reached.deferred.length ≤ 1) : Grows compiler reached := by
  refine ⟨⟨.empty, ?_⟩, ?_, hbuffers⟩
  · rw [hwriter, ByteArray.append_empty]
  · rw [hwriter]

/-- Every step adds to the sink and keeps the lists that are open. -/
theorem Step.traced {depth : Nat} (hdepth : depth ≤ 1) {action : CompileM α}
    (hstep : Step α action) : Traced Grows depth action := by
  intro compiler hlength
  have hone : compiler.deferred.length ≤ 1 := hlength.trans hdepth
  suffices h : Grows compiler (after (action compiler)) ∧
      (after (action compiler)).deferred.length = compiler.deferred.length from
    ⟨.step hstep h.1, h.2⟩
  cases hstep with
  | advance =>
    unfold Compiler.advance
    split <;> exact ⟨.of_writer rfl hone, rfl⟩
  | define name type kind =>
    unfold Compiler.define
    split <;> exact ⟨.of_writer rfl hone, rfl⟩
  | note event =>
    refine ⟨⟨⟨.empty, ?_⟩, Nat.le_refl _, hone⟩, rfl⟩
    rw [ByteArray.append_empty]
    rfl
  | emit command =>
    obtain ⟨writer, deferred, hafter, ⟨added, log, rfl⟩, hsame, -⟩ :=
      after_emit compiler command
    rw [hafter]
    exact ⟨⟨⟨added, rfl⟩, Nat.le_refl _, hsame.trans_le hone⟩, hsame⟩
  | close =>
    obtain ⟨lexer, ⟨⟨bytes, capacity, flushFails, flushes⟩, closed, log⟩, symbols, current,
      className, subroutineName, labels, deferred⟩ := compiler
    cases closed with
    | true => exact ⟨.of_writer rfl hone, rfl⟩
    | false =>
      cases flushFails <;>
        exact ⟨⟨⟨.empty, ByteArray.append_empty.symm⟩, Nat.le_succ _, hone⟩, rfl⟩
  -- the other steps touch neither the writer nor the lists
  | _ => exact ⟨.of_writer rfl hone, rfl⟩

/-- An action without special steps, also while another one is deferred. -/
theorem traced_plain {action : CompileM α} (h : Composed (fun _ _ => False) action) :
    Traced Grows 1 action :=
  h.traced (fun _ _ hstep => hstep.traced (Nat.le_refl 1)) fun _ _ hfalse => hfalse.elim

/-- The list that a deferred action opened is closed when it ends, also when it fails. -/
theorem traced_defer {action : CompileM Unit} (h : Composed (fun _ _ => False) action) :
    Traced Grows 0 (defer action) := by
  intro compiler hlength
  have hnone : compiler.deferred.length = 0 := Nat.le_zero.1 hlength
  have hopened : compiler.opened.deferred.length = 1 := congrArg (· + 1) hnone
  obtain ⟨hinside, hsame⟩ := traced_plain h compiler.opened hopened.le
  have hclosed : (after (defer action compiler)).deferred.length = 0 := by
    rw [after_defer, List.length_tail, hsame, hopened]
  refine ⟨.defer (.of_writer rfl hopened.le) hinside (.of_writer ?_ ?_), hclosed.trans hnone.symm⟩
  · rw [after_defer]
  · rw [hclosed]
    exact Nat.zero_le 1

theorem Special.traced {action : CompileM α} (h : Special α action) : Traced Grows 0 action := by
  cases h with
  | freshLabel => exact Step.freshLabel.traced (Nat.zero_le 1)
  | emit command => exact (Step.emit command).traced (Nat.zero_le 1)
  | defer haction => exact traced_defer haction

/-- A whole run goes through steps that only add to the sink, and ends with no list open. -/
theorem traced_compile : Traced Grows 0 compile := by
  have hstep : ∀ (α : Type) (action : CompileM α), Step α action → Traced Grows 0 action :=
    fun _ _ hstep => hstep.traced (Nat.zero_le 1)
  apply Traced.bind (hstep _ _ .get)
  intro compiler
  have hstatements : Traced Grows 0 (statements (compiler.lexer.budget + 2)) :=
    (composed_statements _).traced hstep fun _ _ hspecial => hspecial.traced
  have hcomposed : Composed (fun _ => Traced Grows 0) (compileWithin (compiler.lexer.budget + 2)) :=
    composed_compileWithin (.base hstatements) (.base (hstep _ _ .close))
  exact hcomposed.traced hstep fun _ _ htraced => htraced

/-- A run of steps that add to the sink adds to the sink. -/
theorem Passes.exists_bytes {action : CompileM α} (h : Passes Grows action compiler) :
    ∃ added, (after (action compiler)).writer.sink.bytes =
      compiler.writer.sink.bytes ++ added := by
  induction h with
  | step _ hgrows => exact hgrows.bytes
  | @bind _ _ action next compiler _ _ ihfirst ihnext =>
    -- what the second half adds comes behind what the first half added
    obtain ⟨first, hfirst⟩ := ihfirst
    simp only [Bind.bind, EStateM.bind]
    cases hrun : action compiler with
    | ok value reached =>
      obtain ⟨rest, hrest⟩ := ihnext value reached hrun
      rw [hrun] at hfirst
      refine ⟨first ++ rest, ?_⟩
      rw [hrest, ← ByteArray.append_assoc, ← hfirst]
      rfl
    | error error reached =>
      rw [hrun] at hfirst
      exact ⟨first, hfirst⟩
  | defer hopen _ hclose ih =>
    obtain ⟨first, hfirst⟩ := hopen.bytes
    obtain ⟨inside, hinside⟩ := ih
    obtain ⟨last, hlast⟩ := hclose.bytes
    refine ⟨first ++ inside ++ last, ?_⟩
    rw [hlast, hinside, hfirst, ByteArray.append_assoc, ByteArray.append_assoc,
      ByteArray.append_assoc]

/-! ## Before the end of a run -/

/-- The part of a run in front of its end. -/
def readClass (budget : Nat) : CompileM Unit := do
  advance
  classDeclaration budget

/-- Nothing is flushed, and no error is that of a flush. -/
structure Unflushed (compiler : Compiler) (error : Option Error) (reached : Compiler) : Prop where
  flushes : reached.writer.sink.flushes = compiler.writer.sink.flushes
  readable : compiler.lexer.Readable →
    reached.lexer.Readable ∧ error ≠ some (.io .flushFailed)

theorem Unflushed.of_lexer {error : Option Error}
    (hflushes : reached.writer.sink.flushes = compiler.writer.sink.flushes)
    (hlexer : reached.lexer = compiler.lexer) (herror : error ≠ some (.io .flushFailed)) :
    Unflushed compiler error reached := by
  refine ⟨hflushes, fun hreadable => ⟨?_, herror⟩⟩
  rwa [hlexer]

theorem unflushed_advance : Ends Unflushed advance := by
  intro compiler
  refine ⟨?_, fun hreadable => ?_⟩
  · unfold advance
    split <;> rfl
  · obtain ⟨hrest, hcause⟩ := hreadable.next
    unfold advance
    split
    · next current lexer hnext =>
      rw [hnext] at hrest
      exact ⟨hrest, by simp [raised]⟩
    · next error lexer hnext =>
      rw [hnext] at hrest
      refine ⟨hrest, ?_⟩
      rintro ⟨⟩
      exact absurd (hcause _ _ hnext) (by decide)

theorem unflushed_emit (command : Command) : Ends Unflushed (emit command) := by
  intro compiler
  obtain ⟨writer, deferred, hafter, ⟨added, log, rfl⟩, -, hraised⟩ := after_emit compiler command
  rw [hafter]
  refine .of_lexer rfl rfl ?_
  intro hflush
  rw [hflush] at hraised
  simp at hraised

theorem keptBySteps_unflushed : KeptBySteps Unflushed where
  refl := fun _ => .of_lexer rfl rfl nofun
  trans := by
    intro first middle last error h h'
    refine ⟨h'.flushes.trans h.flushes, fun hreadable => ?_⟩
    exact h'.readable (h.readable hreadable).1
  complain := by
    intro complaint compiler
    refine .of_lexer rfl rfl ?_
    cases complaint <;> exact nofun
  advance := unflushed_advance
  define := by
    intro name type kind compiler
    unfold define
    split
    · exact .of_lexer rfl rfl nofun
    · exact .of_lexer rfl rfl nofun
  startSubroutine := fun _ => .of_lexer rfl rfl nofun
  nameSubroutine := fun _ _ => .of_lexer rfl rfl nofun
  nameClass := fun _ _ => .of_lexer rfl rfl nofun
  note := fun _ _ => .of_lexer rfl rfl nofun
  emit := fun _ => unflushed_emit _

theorem Special.unflushed {action : CompileM α} (h : Special α action) : Ends Unflushed action := by
  cases h with
  | freshLabel => exact fun _ => .of_lexer rfl rfl nofun
  | emit command => exact unflushed_emit command
  | defer haction =>
    intro compiler
    have hinside := haction.ends keptBySteps_unflushed (fun _ _ hfalse => hfalse.elim)
      compiler.opened
    rw [after_defer, raised_defer]
    exact ⟨hinside.flushes, hinside.readable⟩

theorem unflushed_readClass (budget : Nat) : Ends Unflushed (readClass budget) := by
  have hcomposed : Composed Special (readClass budget) :=
    .bind .advance fun _ => composed_classDeclaration (composed_statements budget)
  exact hcomposed.ends keptBySteps_unflushed fun _ _ hspecial => hspecial.unflushed

/-! ## The end of a run -/

/-- A run fails while it reads the class, or finds tokens behind it, or closes the writer. -/
theorem compile_cases (compiler : Compiler) : ∃ budget,
    (∃ error reached, readClass budget compiler = .error error reached ∧
      compile compiler = .error error reached) ∨
    ∃ reached, readClass budget compiler = .ok () reached ∧
      ((∃ line found, compile compiler = .error (.expected line "end of input" found) reached) ∨
        reached.current = none ∧ compile compiler = close reached) := by
  refine ⟨compiler.lexer.budget + 2, ?_⟩
  rw [compile_eq, compileWithin_eq, readClass]
  cases hadvance : advance compiler with
  | error error reached => exact .inl ⟨error, reached, bind_error hadvance, bind_error hadvance⟩
  | ok _ middle =>
    rw [bind_ok hadvance, bind_ok hadvance]
    cases hclass : classDeclaration (compiler.lexer.budget + 2) middle with
    | error error reached => exact .inl ⟨error, reached, rfl, bind_error hclass⟩
    | ok _ reached =>
      refine .inr ⟨reached, rfl, ?_⟩
      rw [bind_ok hclass, finish, look_bind]
      cases hcurrent : reached.current with
      | some token => exact .inl ⟨reached.lexer.lineNumber, _, rfl⟩
      | none => exact .inr ⟨rfl, rfl⟩

/-- There is no current token, and nothing is left to read. -/
structure Exhausted (compiler : Compiler) : Prop where
  current : compiler.current = none
  spent : compiler.lexer.Spent

theorem exhausted_of_advance (hrun : advance compiler = .ok () reached)
    (hend : reached.current = none) : reached.Exhausted := by
  unfold advance at hrun
  split at hrun
  · next current lexer hnext =>
    cases hrun
    obtain rfl : current = none := hend
    exact ⟨rfl, Lexer.spent_of_next hnext⟩
  · cases hrun

/-- The brace that ends a class is its last token, so what comes behind it is the end. -/
theorem exhausted_of_readClass {budget : Nat} (hrun : readClass budget compiler = .ok () reached)
    (hend : reached.current = none) : reached.Exhausted := by
  -- the steps of the class up to its last one
  obtain ⟨_, _, -, hclass⟩ := bind_ok_iff.1 hrun
  obtain ⟨_, _, -, hclass⟩ := bind_ok_iff.1 hclass
  obtain ⟨_, _, -, hclass⟩ := bind_ok_iff.1 hclass
  obtain ⟨_, _, -, hclass⟩ := bind_ok_iff.1 hclass
  obtain ⟨_, _, -, hclass⟩ := bind_ok_iff.1 hclass
  obtain ⟨_, _, -, hclass⟩ := bind_ok_iff.1 hclass
  obtain ⟨_, _, -, hclass⟩ := bind_ok_iff.1 hclass
  obtain ⟨_, middle, -, hbrace⟩ := bind_ok_iff.1 hclass
  rw [expectSymbol, expect, look_bind] at hbrace
  split at hbrace
  · exact exhausted_of_advance hbrace hend
  · exact absurd hbrace unexpected_ne_ok

/-- Closing changes the writer only, and flushes its sink at most once. -/
theorem close_state (compiler : Compiler) : ∃ writer : Vm.Writer,
    after (close compiler) = { compiler with writer } ∧
      (writer.sink.flushes = compiler.writer.sink.flushes ∨
        writer.sink.flushes = compiler.writer.sink.flushes + 1) := by
  obtain ⟨lexer, ⟨⟨bytes, capacity, flushFails, flushes⟩, closed, log⟩, symbols, current,
    className, subroutineName, labels, deferred⟩ := compiler
  cases closed with
  | true => exact ⟨_, rfl, .inl rfl⟩
  | false => cases flushFails <;> exact ⟨_, rfl, .inr rfl⟩

/-! ## Runs behind the end -/

/-- A compiler that has nothing to read misses its class, and stays as it is. -/
theorem compile_of_exhausted (h : compiler.Exhausted) :
    compile compiler =
      .error (.expected compiler.lexer.lineNumber "class" "end of input") compiler := by
  have hadvance : advance compiler = .ok () compiler := by
    rw [advance, h.spent.next_eq, ← h.current]
  have hclass : ∀ budget, classDeclaration budget compiler =
      .error (.expected compiler.lexer.lineNumber "class" "end of input") compiler := by
    intro budget
    apply bind_error
    rw [expect, look_bind, h.current, if_neg (by simp), still_eq, unexpected, get_bind, h.current]
    rfl
  rw [compile_eq, compileWithin_eq, bind_ok hadvance, bind_error (hclass _)]

theorem afterRuns_of_exhausted (h : compiler.Exhausted) (times : Nat) :
    compiler.afterRuns times = compiler := by
  induction times with
  | zero => rfl
  | succ times ih => rw [afterRuns, compile_of_exhausted h, after, ih]

/-! ## One run after another -/

/-- A compiler between two runs: no list is open, and a flush happened behind the end only. -/
structure Resting (sink : Vm.Sink) (compiler : Compiler) : Prop where
  idle : compiler.deferred = []
  readable : compiler.lexer.Readable
  flushes : compiler.writer.sink.flushes = sink.flushes ∨
    compiler.Exhausted ∧ compiler.writer.sink.flushes = sink.flushes + 1

theorem resting_start (bytes : List UInt8) (sink : Vm.Sink) :
    (start (Lexer.ofBytes bytes) sink).Resting sink :=
  ⟨rfl, Lexer.readable_ofBytes bytes, .inl rfl⟩

/-- What a run does behind its last token is to close the writer. -/
theorem Resting.compile {sink : Vm.Sink} (h : compiler.Resting sink) :
    (after (compile compiler)).Resting sink := by
  have hidle : (after (Compiler.compile compiler)).deferred = [] := by
    have hlength := (traced_compile compiler (by rw [h.idle]; exact Nat.le_refl 0)).2
    rw [h.idle] at hlength
    exact List.length_eq_zero_iff.1 hlength
  -- behind a flush nothing is left to read, so that a run then changes nothing at all
  rcases h.flushes with hflushes | ⟨hexhausted, -⟩
  · obtain ⟨budget, hcases⟩ := compile_cases compiler
    have hunflushed := unflushed_readClass budget compiler
    rcases hcases with ⟨error, reached, hread, hrun⟩ | ⟨reached, hread, hrest⟩
    · rw [hread] at hunflushed
      rw [hrun] at hidle ⊢
      exact ⟨hidle, (hunflushed.readable h.readable).1, .inl (hunflushed.flushes.trans hflushes)⟩
    · rw [hread] at hunflushed
      have hsame : reached.writer.sink.flushes = sink.flushes := hunflushed.flushes.trans hflushes
      rcases hrest with ⟨line, found, hrun⟩ | ⟨hend, hrun⟩
      · rw [hrun] at hidle ⊢
        exact ⟨hidle, (hunflushed.readable h.readable).1, .inl hsame⟩
      · obtain ⟨writer, hclose, hcount⟩ := close_state reached
        rw [hrun, hclose] at hidle ⊢
        refine ⟨hidle, (hunflushed.readable h.readable).1, ?_⟩
        obtain ⟨hcurrent, hspent⟩ := exhausted_of_readClass hread hend
        rw [hsame] at hcount
        exact hcount.imp id fun hnew => ⟨⟨hcurrent, hspent⟩, hnew⟩
  · rw [compile_of_exhausted hexhausted]
    exact h

theorem Resting.afterRuns {sink : Vm.Sink} (h : compiler.Resting sink) (times : Nat) :
    (compiler.afterRuns times).Resting sink := by
  induction times generalizing compiler with
  | zero => exact h
  | succ times ih => exact ih h.compile

/-- A run that ends well, or whose flush failed, has read everything. -/
theorem exhausted_of_compile (hreadable : compiler.lexer.Readable)
    (hrun : compile compiler = .ok () reached ∨
      compile compiler = .error (.io .flushFailed) reached) : reached.Exhausted := by
  obtain ⟨budget, hcases⟩ := compile_cases compiler
  rcases hcases with ⟨error, failed, hread, hfail⟩ | ⟨last, hread, hrest⟩
  -- no error inside the class is that of a flush
  · have hunflushed := unflushed_readClass budget compiler
    rw [hread] at hunflushed
    rw [hfail] at hrun
    rcases hrun with hrun | hrun
    · cases hrun
    · cases hrun
      exact absurd rfl (hunflushed.readable hreadable).2
  · rcases hrest with ⟨line, found, hfail⟩ | ⟨hend, hclose⟩
    · rw [hfail] at hrun
      rcases hrun with hrun | hrun <;> cases hrun
    · obtain ⟨hcurrent, hspent⟩ := exhausted_of_readClass hread hend
      obtain ⟨writer, hstate, -⟩ := close_state last
      have hreached : after (compile compiler) = reached := by
        rcases hrun with hrun | hrun <;> rw [hrun] <;> rfl
      rw [hclose, hstate] at hreached
      rw [← hreached]
      exact ⟨hcurrent, hspent⟩

/-- What one call of a compiler does that was made for a sink and perhaps called before. -/
structure SaneCall (sink : Vm.Sink) (compiler : Compiler) : Prop where
  /-- Each step of the call adds to the end of the sink and leaves at most one list of captured
  commands open. -/
  grows : Passes Grows compile compiler
  /-- The sink holds what it held, and then what the call added. -/
  appends : ∃ added, (after (compile compiler)).writer.sink.bytes =
    compiler.writer.sink.bytes ++ added
  /-- No list is open behind the call. -/
  idle : (after (compile compiler)).deferred = []
  /-- There was at most one flush up to here. -/
  flushes_le : (after (compile compiler)).writer.sink.flushes ≤ sink.flushes + 1
  /-- A call that flushes has read the whole source. -/
  flushed : (after (compile compiler)).writer.sink.flushes ≠ compiler.writer.sink.flushes →
    (after (compile compiler)).Exhausted
  /-- Behind a call that ends well, or whose flush fails, all calls fail and change nothing. -/
  final : ∀ reached, compile compiler = .ok () reached ∨
      compile compiler = .error (.io .flushFailed) reached →
    ∀ more, ∃ error last, compile (reached.afterRuns more) = .error error last ∧
      error.category = .grammatical ∧ last.writer.sink = reached.writer.sink ∧
      last.className = reached.className ∧ last.symbols = reached.symbols

/-- **A compiler can be used again.** However often a compiler over some bytes and some sink was
called before, and however these calls ended, its next call is a sane one. -/
theorem saneCall_afterRuns (bytes : List UInt8) (sink : Vm.Sink) (times : Nat) :
    SaneCall sink ((start (Lexer.ofBytes bytes) sink).afterRuns times) := by
  have hrests := (resting_start bytes sink).afterRuns times
  have hnext := hrests.compile
  have hgrows := traced_compile _ (by rw [hrests.idle]; exact Nat.le_refl 0)
  refine ⟨hgrows.1, hgrows.1.exists_bytes, hnext.idle, ?_, ?_, ?_⟩
  · rcases hnext.flushes with hnone | ⟨-, hone⟩ <;> omega
  · intro hflushed
    rcases hrests.flushes with hnone | ⟨hexhausted, -⟩
    · rcases hnext.flushes with hstill | ⟨hexhausted, -⟩
      · rw [hnone] at hflushed
        exact absurd hstill hflushed
      · exact hexhausted
    · rw [compile_of_exhausted hexhausted] at hflushed
      exact absurd rfl hflushed
  · intro reached hrun more
    have hexhausted := exhausted_of_compile hrests.readable hrun
    rw [afterRuns_of_exhausted hexhausted]
    exact ⟨_, reached, compile_of_exhausted hexhausted, rfl, rfl, rfl, rfl⟩

end Compiler

end Jack
