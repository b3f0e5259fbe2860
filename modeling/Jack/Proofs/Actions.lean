/-
What the compiler's smallest actions do.

A rule of the grammar is an action on the compiler's state, and a proof about one
is a walk along its steps. Two relations describe a walk. `Reached` is the forward
one: from a state with known tokens ahead, a run succeeds, emits known commands
and stands before known tokens. `Consumed` is the backward one: from a run that
did succeed, the tokens it moved over are put back in front of whatever is ahead
at its end. Each primitive action gets one lemma for each direction, and the rules
only compose them.

`emitted` says where commands go: to the innermost deferred action if there is
one, and else to the sink, a line for each.
-/
import Jack.Proofs.Translation
import Jack.Proofs.TokenStream

set_option autoImplicit false

namespace Jack

open Vm (Command)

/-! ## Sequences of actions -/

namespace Compiler

variable {α β : Type}

/-- A sequence goes on from where its first part ended. Nearly every proof about a rule takes its
steps off with this equation. -/
theorem bind_ok {action : CompileM α} {next : α → CompileM β} {compiler reached : Compiler}
    {value : α} (hrun : action compiler = .ok value reached) :
    (action >>= next) compiler = next value reached := by
  simp only [bind, EStateM.bind, hrun]

/-- A sequence ends where its first part fails. -/
theorem bind_error {action : CompileM α} {next : α → CompileM β} {compiler reached : Compiler}
    {error : Error} (hrun : action compiler = .error error reached) :
    (action >>= next) compiler = .error error reached := by
  simp only [bind, EStateM.bind, hrun]

/-- A sequence succeeds exactly when both halves do. -/
theorem bind_ok_iff {action : CompileM α} {next : α → CompileM β} {compiler final : Compiler}
    {value : β} :
    (action >>= next) compiler = .ok value final ↔
      ∃ found reached, action compiler = .ok found reached ∧ next found reached = .ok value final := by
  constructor
  · intro hrun
    cases hfirst : action compiler with
    | ok found reached =>
      rw [bind_ok hfirst] at hrun
      exact ⟨found, reached, rfl, hrun⟩
    | error error reached => simp [bind, EStateM.bind, hfirst] at hrun
  · rintro ⟨found, reached, hfirst, hrest⟩
    rw [bind_ok hfirst, hrest]

/-- A sequence fails in its first half or in its second. -/
theorem bind_error_cases {action : CompileM α} {next : α → CompileM β} {compiler final : Compiler}
    {error : Error} (hrun : (action >>= next) compiler = .error error final) :
    action compiler = .error error final ∨
      ∃ found reached, action compiler = .ok found reached ∧ next found reached = .error error final := by
  cases hfirst : action compiler with
  | ok found reached =>
    rw [bind_ok hfirst] at hrun
    exact .inr ⟨found, reached, rfl, hrun⟩
  | error met reached =>
    rw [bind_error hfirst] at hrun
    cases hrun
    exact .inl rfl

theorem get_bind (next : Compiler → CompileM β) (compiler : Compiler) :
    (get >>= next) compiler = next compiler compiler := rfl

/-- Looking is getting the state; the rules are written with the former and the theory with the
latter. -/
theorem look_bind (next : Compiler → CompileM β) (compiler : Compiler) :
    (Actions.look >>= next) compiler = next compiler compiler := rfl

/-- Names the action that goes on from the state, so that its cases can be split. -/
theorem get_bind_ok {next : Compiler → CompileM β} {compiler reached : Compiler} {value : β}
    (hrun : (get >>= next) compiler = .ok value reached) :
    ∃ action, next compiler = action ∧ action compiler = .ok value reached :=
  ⟨next compiler, rfl, hrun⟩

theorem modify_bind (change : Compiler → Compiler) (next : PUnit → CompileM β)
    (compiler : Compiler) :
    (modify change >>= next) compiler = next ⟨⟩ (change compiler) := rfl

theorem pure_apply (value : α) (compiler : Compiler) :
    (pure value : CompileM α) compiler = .ok value compiler := rfl

/-- Looking whether a symbol comes next. -/
theorem atSymbol_bind (c : Char) (next : Bool → CompileM β) (compiler : Compiler) :
    (atSymbol c >>= next) compiler = next (compiler.current == some (.symbol c)) compiler := rfl

theorem atKeyword_bind (keyword : Keyword) (next : Bool → CompileM β) (compiler : Compiler) :
    (atKeyword keyword >>= next) compiler =
      next (compiler.current == some (.keyword keyword)) compiler := rfl

/-- A complaint is never a success, so a run that succeeded has not been there. -/
theorem unexpected_ne_ok {wanted : String} {compiler reached : Compiler} {value : α} :
    unexpected wanted compiler ≠ .ok value reached := by
  intro hrun
  cases hrun

end Compiler

/-! ## Loops

Both loops stop when the current token does not ask for another round; they also
stop when their bound is used up, which a large enough bound rules out. -/

namespace Compiler

variable {α : Type} {compiler middle : Compiler}

/-- A repetition ends where no head is, however many rounds are left. -/
theorem many_stop {head : Token → Option α} {rule : α → CompileM Unit}
    (hnone : compiler.current.bind head = none) (rounds : Nat) :
    many head rule rounds compiler = .ok () compiler := by
  cases rounds with
  | zero => rfl
  | succ round =>
    rw [many, look_bind, hnone]
    rfl

/-- One round of a repetition, from the state in front of the head to the state behind the rule. -/
theorem many_step {head : Token → Option α} {rule : α → CompileM Unit} {found : α}
    (hsome : compiler.current.bind head = some found)
    (hrule : rule found compiler = .ok () middle) (round : Nat) :
    many head rule (round + 1) compiler = many head rule round middle := by
  rw [many, look_bind, hsome]
  exact bind_ok hrule

/-- A list ends where no comma is. Its items were put in front one by one, so they are turned
round. -/
theorem commaListFrom_stop {item : CompileM α} (found : List α)
    (hcurrent : compiler.current ≠ some (.symbol ',')) (rounds : Nat) :
    commaListFrom item found rounds compiler = .ok found.reverse compiler := by
  cases rounds with
  | zero => rfl
  | succ round =>
    rw [commaListFrom, atSymbol_bind, if_neg (by simpa using hcurrent)]
    rfl

/-- One more item of a list, behind its comma. -/
theorem commaListFrom_step {item : CompileM α} (found : List α) {behind : Compiler} {value : α}
    (hcurrent : compiler.current = some (.symbol ','))
    (hcomma : advance compiler = .ok () middle) (hitem : item middle = .ok value behind)
    (round : Nat) :
    commaListFrom item found (round + 1) compiler =
      commaListFrom item (value :: found) round behind := by
  rw [commaListFrom, atSymbol_bind, hcurrent, if_pos (by simp), move_eq, bind_ok hcomma,
    bind_ok hitem]

end Compiler

/-! ## Where commands go -/

namespace Vm.Writer

/-- A writer that takes every command. -/
structure Open (writer : Writer) : Prop where
  notClosed : writer.closed = false
  unlimited : writer.sink.capacity = none

/-- A writer after some commands. -/
def written (writer : Writer) (commands : List Command) : Writer :=
  { writer with
    sink := { writer.sink with bytes := writer.sink.bytes ++ (Syntax.lines commands).toUTF8 }
    log := writer.log ++ (commands.map fun command => LogEvent.writing command.render).toArray }

theorem written_nil (writer : Writer) : writer.written [] = writer := by
  simp [written, Syntax.lines]

theorem written_append (writer : Writer) (first rest : List Command) :
    writer.written (first ++ rest) = (writer.written first).written rest := by
  simp [written, Syntax.lines, String.join_append, ByteArray.append_assoc]

/-- A writer that is open stays open, as long as it is only written to. -/
theorem Open.written {writer : Writer} (hopen : writer.Open) (commands : List Command) :
    (writer.written commands).Open := ⟨hopen.notClosed, hopen.unlimited⟩

/-- An open writer without a limit takes every command. -/
theorem Open.write {writer : Writer} (hopen : writer.Open) (command : Command) :
    writer.write command = .ok () (writer.written [command]) := by
  obtain ⟨⟨bytes, capacity, flushFails, flushes⟩, closed, log⟩ := writer
  obtain ⟨rfl, rfl⟩ := hopen
  simp [write_eq, writeLine, Sink.write, Writer.written, Syntax.lines]

end Vm.Writer

namespace Compiler

/-- The state after some commands. -/
def emitted (compiler : Compiler) (commands : List Command) : Compiler :=
  match compiler.deferred with
  | [] => { compiler with writer := compiler.writer.written commands }
  | captured :: outer =>
    { compiler with deferred := (commands.reverse ++ captured) :: outer }

theorem emitted_nil (compiler : Compiler) : compiler.emitted [] = compiler := by
  rw [emitted]
  split
  · rw [Vm.Writer.written_nil]
  · next hdeferred =>
    rw [List.reverse_nil, List.nil_append, ← hdeferred]

theorem emitted_append (compiler : Compiler) (first rest : List Command) :
    compiler.emitted (first ++ rest) = (compiler.emitted first).emitted rest := by
  obtain ⟨lexer, writer, symbols, current, className, subroutineName, labels, deferred⟩ := compiler
  cases deferred with
  | nil => simp [emitted, Vm.Writer.written_append]
  | cons captured outer => simp [emitted]

/-- Emitting through an open writer always succeeds. So while the writer is open, all that can fail
is what has to do with the source. -/
theorem emit_eq {compiler : Compiler} (hopen : compiler.writer.Open) (command : Command) :
    emit command compiler = .ok () (compiler.emitted [command]) := by
  obtain ⟨lexer, writer, symbols, current, className, subroutineName, labels, deferred⟩ := compiler
  cases deferred with
  | nil => simp [emit, emitted, hopen.write command]
  | cons captured outer => simp [emit, emitted]

/-! ## Walking forward -/

/-- The tokens from the current one to the end of the source. -/
def Ahead (compiler : Compiler) : List Token → Prop
  | [] => compiler.current = none
  | token :: rest => compiler.current = some token ∧ compiler.lexer.Yields rest

/-- The first token ahead is the current one. -/
theorem Ahead.current_eq {compiler : Compiler} {tokens : List Token}
    (hahead : compiler.Ahead tokens) : compiler.current = tokens.head? := by
  cases tokens with
  | nil => exact hahead
  | cons token rest => exact hahead.1

/-- A walk: from one state to another that emits commands, takes numbers for labels
and stands before given tokens. Everything else stays as it was. -/
structure Reached (compiler : Compiler) (commands : List Command) (numbers : Nat)
    (rest : List Token) (reached : Compiler) : Prop where
  state : reached =
    { compiler.emitted commands with
      lexer := reached.lexer
      current := reached.current
      labels := compiler.labels + numbers }
  ahead : reached.Ahead rest

namespace Reached

variable {compiler middle reached : Compiler} {commands more : List Command} {numbers count : Nat}
  {rest mid : List Token}

theorem symbols_eq (h : Reached compiler commands numbers rest reached) :
    reached.symbols = compiler.symbols := by
  rw [h.state, emitted]
  split <;> rfl

theorem className_eq (h : Reached compiler commands numbers rest reached) :
    reached.className = compiler.className := by
  rw [h.state, emitted]
  split <;> rfl

theorem labels_eq (h : Reached compiler commands numbers rest reached) :
    reached.labels = compiler.labels + numbers := by
  rw [h.state]

/-- The writer is open behind a walk if it was open before. -/
theorem writer_open (h : Reached compiler commands numbers rest reached)
    (hopen : compiler.writer.Open) : reached.writer.Open := by
  rw [h.state, emitted]
  split
  · exact hopen.written commands
  · exact hopen

/-- A walk that goes nowhere. -/
theorem refl (hahead : compiler.Ahead rest) : Reached compiler [] 0 rest compiler where
  state := by rw [emitted_nil, Nat.add_zero]
  ahead := hahead

/-- Two walks in a row. -/
theorem trans (h : Reached compiler commands numbers mid middle)
    (h' : Reached middle more count rest reached) :
    Reached compiler (commands ++ more) (numbers + count) rest reached where
  state := by
    rw [h'.state, h.state, emitted_append]
    obtain ⟨lexer, writer, symbols, current, className, subroutineName, labels, deferred⟩ := compiler
    cases deferred <;> simp [emitted, Nat.add_assoc]
  ahead := h'.ahead

end Reached

/-- Pulling the next token of the lexer, whatever the current one is. -/
theorem advance_of_yields {compiler : Compiler} {tokens : List Token}
    (hyields : compiler.lexer.Yields tokens) :
    ∃ reached, advance compiler = .ok () reached ∧ Reached compiler [] 0 tokens reached := by
  cases hyields with
  | @done _ lexer hpull =>
    refine ⟨{ compiler with lexer, current := none }, by rw [advance, hpull], ?_, rfl⟩
    rw [emitted_nil, Nat.add_zero]
  | @more _ lexer next _ hpull hrest =>
    refine ⟨{ compiler with lexer, current := some next }, by rw [advance, hpull], ?_, rfl, hrest⟩
    rw [emitted_nil, Nat.add_zero]

/-- Moving over the current token. -/
theorem advance_reached {compiler : Compiler} {token : Token} {rest : List Token}
    (hahead : compiler.Ahead (token :: rest)) :
    ∃ reached, advance compiler = .ok () reached ∧ Reached compiler [] 0 rest reached :=
  advance_of_yields hahead.2

/-- The token that is ahead is passed over. -/
theorem expect_reached {compiler : Compiler} {token : Token} {rest : List Token}
    (hahead : compiler.Ahead (token :: rest)) :
    ∃ reached, expect token compiler = .ok () reached ∧ Reached compiler [] 0 rest reached := by
  obtain ⟨reached, hrun, hreached⟩ := advance_reached hahead
  refine ⟨reached, ?_, hreached⟩
  rw [expect, look_bind, hahead.1, beq_self_eq_true, if_pos rfl, move_eq, hrun]

/-- The name that is ahead is read. -/
theorem name_reached {compiler : Compiler} {found : String} {rest : List Token}
    (hahead : compiler.Ahead (.identifier found :: rest)) :
    ∃ reached, name compiler = .ok found reached ∧ Reached compiler [] 0 rest reached := by
  obtain ⟨reached, hrun, hreached⟩ := advance_reached hahead
  refine ⟨reached, ?_, hreached⟩
  rw [name, look_bind, hahead.1]
  exact bind_ok hrun

/-- A rule between two symbols, given how the rule itself goes. -/
theorem between_reached {α : Type} {compiler : Compiler} {opening closing : Char}
    {rule : CompileM α} {value : α} {commands : List Command} {numbers : Nat}
    {inner rest : List Token} (hahead : compiler.Ahead (.symbol opening :: inner))
    (hrule : ∀ inside, Reached compiler [] 0 inner inside → ∃ behind,
      rule inside = .ok value behind ∧
        Reached inside commands numbers (.symbol closing :: rest) behind) :
    ∃ reached, between opening rule closing compiler = .ok value reached ∧
      Reached compiler commands numbers rest reached := by
  obtain ⟨inside, hopening, hinside⟩ := expect_reached hahead
  obtain ⟨behind, hrun, hbehind⟩ := hrule inside hinside
  obtain ⟨reached, hclosing, hreached⟩ := expect_reached hbehind.ahead
  refine ⟨reached, ?_, by simpa using (hinside.trans hbehind).trans hreached⟩
  rw [between, expectSymbol, bind_ok hopening, bind_ok hrun, expectSymbol, bind_ok hclosing]
  rfl

/-- Emitting leaves what is ahead. -/
theorem emit_reached {compiler : Compiler} {rest : List Token} (hopen : compiler.writer.Open)
    (hahead : compiler.Ahead rest) (command : Command) :
    ∃ reached, emit command compiler = .ok () reached ∧
      Reached compiler [command] 0 rest reached := by
  refine ⟨_, emit_eq hopen command, ?_, ?_⟩
  · rw [emitted]
    split <;> rfl
  · rw [emitted]
    split <;> cases rest <;> exact hahead

/-- Emitting several commands leaves what is ahead. -/
theorem emitAll_reached {compiler : Compiler} {rest : List Token} (hopen : compiler.writer.Open)
    (hahead : compiler.Ahead rest) (commands : List Command) :
    ∃ reached, emitAll commands compiler = .ok () reached ∧
      Reached compiler commands 0 rest reached := by
  induction commands generalizing compiler with
  | nil => exact ⟨compiler, rfl, .refl hahead⟩
  | cons command others ih =>
    obtain ⟨middle, hfirst, hmiddle⟩ := emit_reached hopen hahead command
    obtain ⟨reached, hothers, hreached⟩ := ih (hmiddle.writer_open hopen) hmiddle.ahead
    exact ⟨reached, by rw [emitAll, bind_ok hfirst, hothers], hmiddle.trans hreached⟩

/-- A deferred action hands its commands over instead of emitting them. -/
theorem defer_reached {compiler : Compiler} {action : CompileM Unit} {commands : List Command}
    {rest tokens : List Token} (hahead : compiler.Ahead tokens)
    (haction : ∀ inside : Compiler, inside.symbols = compiler.symbols →
      inside.className = compiler.className → inside.writer = compiler.writer →
      inside.Ahead tokens → ∃ behind, action inside = .ok () behind ∧
        Reached inside commands 0 rest behind) :
    ∃ reached, defer action compiler = .ok commands reached ∧
      Reached compiler [] 0 rest reached := by
  obtain ⟨behind, hrun, hbehind⟩ :=
    haction { compiler with deferred := [] :: compiler.deferred } rfl rfl rfl
      (by cases tokens <;> exact hahead)
  have hstate := hbehind.state
  simp only [emitted, List.append_nil] at hstate
  refine ⟨{ behind with deferred := behind.deferred.tail }, ?_, ?_, ?_⟩
  · rw [defer, hrun, hstate]
    simp
  · rw [hstate, emitted_nil]
    simp
  · have hbehindAhead := hbehind.ahead
    cases rest <;> exact hbehindAhead

/-! ## Looking back -/

/-- The way back of a walk that succeeded: whatever is ahead at its end, the walk
began with these tokens in front of it, and it changed no names. -/
structure Consumed (compiler : Compiler) (tokens : List Token) (reached : Compiler) : Prop where
  ahead : ∀ rest, reached.Ahead rest → compiler.Ahead (tokens ++ rest)
  symbols_eq : reached.symbols = compiler.symbols
  className_eq : reached.className = compiler.className

namespace Consumed

variable {compiler middle reached : Compiler} {first rest : List Token}

theorem refl (compiler : Compiler) : Consumed compiler [] compiler := ⟨fun _ => id, rfl, rfl⟩

theorem trans (h : Consumed compiler first middle) (h' : Consumed middle rest reached) :
    Consumed compiler (first ++ rest) reached where
  ahead tokens hahead := by
    rw [List.append_assoc]
    exact h.ahead _ (h'.ahead _ hahead)
  symbols_eq := h'.symbols_eq.trans h.symbols_eq
  className_eq := h'.className_eq.trans h.className_eq

/-- An action that does not touch the lexer. -/
theorem of_still (hlexer : reached.lexer = compiler.lexer)
    (hcurrent : reached.current = compiler.current) (hsymbols : reached.symbols = compiler.symbols)
    (hclass : reached.className = compiler.className) : Consumed compiler [] reached where
  ahead rest hahead := by
    cases rest with
    | nil => exact hcurrent.symm.trans hahead
    | cons token others => exact ⟨hcurrent ▸ hahead.1, hlexer ▸ hahead.2⟩
  symbols_eq := hsymbols
  className_eq := hclass

end Consumed

/-- What is ahead behind a pull is what the lexer yielded. -/
theorem yields_of_advance {compiler reached : Compiler} (hrun : advance compiler = .ok () reached)
    {rest : List Token} (hahead : reached.Ahead rest) : compiler.lexer.Yields rest := by
  unfold advance at hrun
  split at hrun
  · next current lexer hpull =>
    cases hrun
    cases rest with
    | nil =>
      obtain rfl : current = none := hahead
      exact .done hpull
    | cons token others =>
      obtain ⟨rfl, hrest⟩ : current = some token ∧ lexer.Yields others := hahead
      exact .more hpull hrest
  · cases hrun

/-- Moving on consumes the current token. -/
theorem advance_consumed {compiler reached : Compiler} {token : Token}
    (hcurrent : compiler.current = some token) (hrun : advance compiler = .ok () reached) :
    Consumed compiler [token] reached := by
  refine ⟨fun rest hahead => ⟨hcurrent, yields_of_advance hrun hahead⟩, ?_, ?_⟩
  all_goals
    unfold advance at hrun
    split at hrun <;> cases hrun
    rfl

/-- What was expected was there, and it was consumed. -/
theorem expect_consumed {compiler reached : Compiler} {token : Token}
    (hrun : expect token compiler = .ok () reached) : Consumed compiler [token] reached := by
  rw [expect, look_bind] at hrun
  split at hrun
  · next hcurrent => exact advance_consumed (by simpa using hcurrent) hrun
  · exact absurd hrun unexpected_ne_ok

/-- A name that was read was there, and it was consumed. -/
theorem name_consumed {compiler reached : Compiler} {found : String}
    (hrun : name compiler = .ok found reached) :
    Consumed compiler [.identifier found] reached := by
  obtain ⟨action, haction, hrun⟩ := get_bind_ok hrun
  split at haction <;> subst haction
  · next named hcurrent =>
    obtain ⟨_, middle, hadvance, hpure⟩ := bind_ok_iff.1 hrun
    cases hpure
    exact advance_consumed hcurrent hadvance
  · exact absurd hrun unexpected_ne_ok

/-- A rule between two symbols consists of the symbols and the rule. -/
theorem between_ok_iff {α : Type} {compiler reached : Compiler} {opening closing : Char}
    {rule : CompileM α} {value : α} :
    between opening rule closing compiler = .ok value reached ↔
      ∃ inside behind, expectSymbol opening compiler = .ok () inside ∧
        rule inside = .ok value behind ∧ expectSymbol closing behind = .ok () reached := by
  constructor
  · intro hrun
    obtain ⟨_, inside, hopening, hrun⟩ := bind_ok_iff.1 hrun
    obtain ⟨found, behind, hrule, hrun⟩ := bind_ok_iff.1 hrun
    obtain ⟨_, last, hclosing, hpure⟩ := bind_ok_iff.1 hrun
    cases hpure
    exact ⟨inside, behind, hopening, hrule, hclosing⟩
  · rintro ⟨inside, behind, hopening, hrule, hclosing⟩
    rw [between, bind_ok hopening, bind_ok hrule, bind_ok hclosing]
    rfl

/-- Emitting consumes nothing. -/
theorem emit_consumed {compiler reached : Compiler} {command : Command}
    (hrun : emit command compiler = .ok () reached) : Consumed compiler [] reached := by
  obtain ⟨lexer, writer, symbols, current, className, subroutineName, labels, deferred⟩ := compiler
  unfold emit at hrun
  dsimp only at hrun
  split at hrun
  · cases hrun
    exact .of_still rfl rfl rfl rfl
  · split at hrun <;> cases hrun
    exact .of_still rfl rfl rfl rfl

/-- Emitting several commands consumes nothing. -/
theorem emitAll_consumed {compiler reached : Compiler} {commands : List Command}
    (hrun : emitAll commands compiler = .ok () reached) : Consumed compiler [] reached := by
  induction commands generalizing compiler with
  | nil =>
    cases hrun
    exact .refl _
  | cons command others ih =>
    obtain ⟨_, middle, hemit, hothers⟩ := bind_ok_iff.1 hrun
    exact (emit_consumed hemit).trans (ih hothers)

/-- Taking notes consumes nothing. -/
theorem note_consumed {compiler reached : Compiler} {event : LogEvent}
    (hrun : note event compiler = .ok () reached) : Consumed compiler [] reached := by
  cases hrun
  exact .of_still rfl rfl rfl rfl

/-- A deferred action is the action itself between two changes of where commands go. -/
theorem defer_ok {compiler reached : Compiler} {action : CompileM Unit} {commands : List Command}
    (hrun : defer action compiler = .ok commands reached) :
    ∃ inside behind, Consumed compiler [] inside ∧ action inside = .ok () behind ∧
      Consumed behind [] reached := by
  unfold defer at hrun
  split at hrun
  · next behind hinner =>
    cases hrun
    exact ⟨{ compiler with deferred := [] :: compiler.deferred }, behind, .of_still rfl rfl rfl rfl,
      hinner, .of_still rfl rfl rfl rfl⟩
  · cases hrun

/-- A loop that succeeds stops at once or goes round. -/
theorem many_ok_cases {α : Type} {head : Token → Option α} {rule : α → CompileM Unit}
    {rounds : Nat} {compiler reached : Compiler}
    (hrun : many head rule rounds compiler = .ok () reached) :
    reached = compiler ∨ ∃ round found middle, rounds = round + 1 ∧
      compiler.current.bind head = some found ∧ rule found compiler = .ok () middle ∧
        many head rule round middle = .ok () reached := by
  cases rounds with
  | zero =>
    cases hrun
    exact .inl rfl
  | succ round =>
    obtain ⟨action, haction, hrun⟩ := get_bind_ok hrun
    split at haction <;> subst haction
    · next found hfound =>
      obtain ⟨_, middle, hrule, hrest⟩ := bind_ok_iff.1 hrun
      exact .inr ⟨round, found, middle, rfl, hfound, hrule, hrest⟩
    · cases hrun
      exact .inl rfl

/-- A list that succeeds stops at once or has another item. -/
theorem commaListFrom_ok_cases {α : Type} {item : CompileM α} {found items : List α}
    {rounds : Nat} {compiler reached : Compiler}
    (hrun : commaListFrom item found rounds compiler = .ok items reached) :
    items = found.reverse ∧ reached = compiler ∨
      ∃ round behindComma value middle, rounds = round + 1 ∧
        Consumed compiler [.symbol ','] behindComma ∧ item behindComma = .ok value middle ∧
          commaListFrom item (value :: found) round middle = .ok items reached := by
  cases rounds with
  | zero =>
    cases hrun
    exact .inl ⟨rfl, rfl⟩
  | succ round =>
    rw [commaListFrom, atSymbol_bind] at hrun
    split at hrun
    · next hcurrent =>
      obtain ⟨_, behindComma, hcomma, hrun⟩ := bind_ok_iff.1 hrun
      obtain ⟨value, middle, hitem, hrest⟩ := bind_ok_iff.1 hrun
      exact .inr ⟨round, behindComma, value, middle, rfl,
        advance_consumed (by simpa using hcurrent) hcomma, hitem, hrest⟩
    · cases hrun
      exact .inl ⟨rfl, rfl⟩

end Compiler

end Jack
