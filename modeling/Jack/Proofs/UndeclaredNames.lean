/-
Where a rule stands when it meets an undeclared name.

A name is looked up right behind the pull that moved over it. So a rule for expressions or
statements that fails at an undeclared name has moved over some tokens of which the name is the
last, and the line it reports is the one that the lexer is at by then, on the way to the token
behind the name (`Follows`). No rule for expressions or statements fails at a name for another
reason, and no smaller action fails at a name at all (`Blameless`).
-/
import Jack.Proofs.AcceptedBody
import Jack.Proofs.Draining
import Jack.Proofs.EveryRun

set_option autoImplicit false

namespace Jack

/-! ## Errors about names -/

/-- Why a name is rejected. -/
inductive Offence where
  | undeclared
  | repeated
  deriving DecidableEq, Repr

/-- The error of an offence on a line. -/
def Offence.error : Offence → Nat → String → Error
  | undeclared, line, name => .undeclaredName line name
  | repeated, line, name => .duplicateName (some line) name

/-- An error that is not about a name. -/
def Error.Blameless (error : Error) : Prop :=
  ∀ (offence : Offence) line name, error ≠ offence.error line name

/-- A token that was not expected may be a name, but the error is about the token. -/
theorem Error.blameless_expected (line : Nat) (wanted found : String) :
    (Error.expected line wanted found).Blameless := by
  rintro (_ | _) _ _ ⟨⟩

/-- The error names the one who is called, and yet it is about the arguments. -/
theorem Error.blameless_tooManyArguments (line : Nat) (callee : String) :
    (Error.tooManyArguments line callee).Blameless := by
  rintro (_ | _) _ _ ⟨⟩

/-- What goes wrong outside has nothing to do with names. -/
theorem Error.blameless_io (cause : IoCause) : (Error.io cause).Blameless := by
  rintro (_ | _) _ _ ⟨⟩

/-- A line that cannot be divided into lexemes has no names yet. -/
theorem Lexeme.Fault.blameless_error (fault : Lexeme.Fault) (number : Nat) :
    (fault.error number).Blameless := by
  cases fault <;> rintro (_ | _) _ _ ⟨⟩

namespace Lexer

variable {lexer reached : Lexer} {error : Error}

/-- Classifying a lexeme fails at its shape or at the size of a number, and never because of what a
name stands for. -/
theorem blameless_of_take (htake : take lexer = .error error reached) : error.Blameless := by
  unfold take at htake
  split at htake
  · cases htake
    exact Error.blameless_expected _ _ _
  · split at htake
    · cases htake
    · next hclassify =>
      cases htake
      rcases Lexeme.error_of_classify hclassify with rfl | rfl <;> rintro (_ | _) _ _ ⟨⟩

/-- Reading lines fails at a line that is not text or at one with a fault. Both are errors of the
line. -/
theorem blameless_of_hasNext (hpull : hasNext lexer = .error error reached) :
    error.Blameless := by
  -- nothing has to be known of the lexer: only the line it failed at matters
  have hany : Invariant fun _ => True := ⟨fun _ _ _ => trivial, fun _ => trivial⟩
  obtain ⟨before, line, rest, -, -, -, hread⟩ := hany.of_fill_error rfl trivial hpull
  rcases readLine_cases before line rest with
    ⟨cause, -, hresult⟩ | ⟨characters, faulty, -, -, hresult⟩ | ⟨characters, scan, -, -, hresult⟩
  · rw [hresult] at hread
    cases hread
    exact Error.blameless_io cause
  · rw [hresult] at hread
    cases hread
    exact faulty.blameless_error _
  · rw [hresult] at hread
    cases hread

/-- A lexer knows nothing of variables. -/
theorem blameless_of_next (hpull : next lexer = .error error reached) : error.Blameless := by
  cases hmore : hasNext lexer with
  | error met middle =>
    rw [next_of_error hmore] at hpull
    cases hpull
    exact blameless_of_hasNext hmore
  | ok more middle =>
    cases more with
    | false =>
      rw [next_of_false hmore] at hpull
      cases hpull
    | true =>
      rw [next_of_true hmore, EStateM.map] at hpull
      split at hpull
      · cases hpull
      · next htake =>
        cases hpull
        exact blameless_of_take htake

end Lexer

namespace Compiler

open Vm (Command)

variable {α β : Type}

/-! ## Actions that fail at no name -/

/-- An action whose failures are not about names. -/
def Blameless (action : CompileM α) : Prop :=
  ∀ compiler error reached, action compiler = .error error reached → error.Blameless

section

variable {action : CompileM α} {next : α → CompileM β}

/-- Failing at no name carries over to sequences, whatever is handed on in between. -/
theorem Blameless.bind (h : Blameless action) (hnext : ∀ value, Blameless (next value)) :
    Blameless (action >>= next) := by
  intro compiler error reached hrun
  rcases bind_error_cases hrun with hfirst | ⟨value, middle, -, hrest⟩
  · exact h _ _ _ hfirst
  · exact hnext _ _ _ _ hrest

/-- What does nothing does not fail. -/
theorem blameless_pure (value : α) : Blameless (pure value : CompileM α) := by
  rintro _ _ _ ⟨⟩

/-- Looking at the state fails only where the rest does. The rest may depend on all of the state. -/
theorem blameless_look {next : Compiler → CompileM α}
    (hnext : ∀ compiler, Blameless (next compiler)) : Blameless (get >>= next) :=
  fun compiler _ _ hrun => hnext compiler _ _ _ hrun

/-- A complaint about the current token is not about a name, even if the token is one. -/
theorem blameless_unexpected (wanted : String) : Blameless (unexpected wanted : CompileM α) := by
  rintro compiler error reached ⟨⟩
  exact Error.blameless_expected _ _ _

/-- Moving on fails where the lexer fails. -/
theorem blameless_advance : Blameless advance := by
  intro compiler error reached hrun
  unfold advance at hrun
  split at hrun
  · cases hrun
  · next hpull =>
    cases hrun
    exact Lexer.blameless_of_next hpull

/-- A token that has to be there is missed without any regard to names. -/
theorem blameless_expect (token : Token) : Blameless (expect token) := by
  refine blameless_look fun compiler => ?_
  split
  · exact blameless_advance
  · exact blameless_unexpected _

/-- Reading a name fails if there is none. Whether the name is declared is asked for later, by those
who use it. -/
theorem blameless_name : Blameless name := by
  refine blameless_look fun compiler => ?_
  split
  · exact blameless_advance.bind fun _ => blameless_pure _
  · exact blameless_unexpected _

/-- Reading a type fails if there is none; no class has to be declared. -/
theorem blameless_type : Blameless type := by
  refine blameless_look fun compiler => ?_
  split
  · exact blameless_advance.bind fun _ => blameless_pure _
  · exact blameless_unexpected _

/-- Lists fail where their items do, by induction on the rounds that are left. -/
theorem blameless_commaListFrom {item : CompileM α} (hitem : Blameless item) (found : List α)
    (rounds : Nat) : Blameless (commaListFrom item found rounds) := by
  induction rounds generalizing found with
  | zero => exact blameless_pure _
  | succ round ih =>
    refine blameless_look fun compiler => ?_
    split
    · exact blameless_advance.bind fun _ => hitem.bind fun value => ih (value :: found)
    · exact blameless_pure _

/-- A list fails at no name if its items fail at none. -/
theorem blameless_commaList {item : CompileM α} (hitem : Blameless item) (budget : Nat) :
    Blameless (commaList item budget) :=
  hitem.bind fun value => blameless_commaListFrom hitem [value] budget

/-- Notes are always taken. -/
theorem blameless_note (event : LogEvent) : Blameless (note event) := by
  rintro _ _ _ ⟨⟩

/-- Emitting fails if the writer is closed or its sink is full, and in no other way. -/
theorem blameless_emit (command : Command) : Blameless (emit command) := by
  intro compiler error reached hrun
  obtain ⟨-, -, -, -, -, hraised⟩ := after_emit compiler command
  rw [hrun, raised] at hraised
  have hio : error = .io .sinkFull ∨ error = .io .writerClosed := by simpa using hraised
  rcases hio with rfl | rfl <;> exact Error.blameless_io _

/-- Several commands fail where one of them does. -/
theorem blameless_emitAll (commands : List Command) : Blameless (emitAll commands) := by
  induction commands with
  | nil => exact blameless_pure ()
  | cons command rest ih => exact (blameless_emit command).bind fun _ => ih

end

/-! ## Failing at an undeclared name -/

/-- The way back of a walk that stays in the body of one subroutine. -/
structure InBody (compiler : Compiler) (tokens : List Token) (reached : Compiler) : Prop where
  consumed : Consumed compiler tokens reached
  inside : ∀ token ∈ tokens, subroutineKind? token = none

/-- A run that moved over nothing has not left the body. -/
theorem Consumed.inBody {compiler reached : Compiler} (h : Consumed compiler [] reached) :
    InBody compiler [] reached := ⟨h, fun _ hmem => absurd hmem List.not_mem_nil⟩

/-- A run that moved over one token is still in the body if no subroutine begins with that token. -/
theorem Consumed.inBody_single {compiler reached : Compiler} {token : Token}
    (h : Consumed compiler [token] reached) (hinside : subroutineKind? token = none) :
    InBody compiler [token] reached := ⟨h, List.forall_mem_singleton.2 hinside⟩

/-- An action that does not touch the lexer. -/
theorem InBody.of_still {compiler reached : Compiler} (hlexer : reached.lexer = compiler.lexer)
    (hcurrent : reached.current = compiler.current) (hsymbols : reached.symbols = compiler.symbols)
    (hclass : reached.className = compiler.className) : InBody compiler [] reached :=
  (Consumed.of_still hlexer hcurrent hsymbols hclass).inBody

/-- To stay where one is. -/
theorem InBody.refl (compiler : Compiler) : InBody compiler [] compiler := (Consumed.refl _).inBody

/-- Two runs one behind the other, with the tokens of both. -/
theorem InBody.trans {compiler middle reached : Compiler} {first rest : List Token}
    (h : InBody compiler first middle) (h' : InBody middle rest reached) :
    InBody compiler (first ++ rest) reached :=
  ⟨h.consumed.trans h'.consumed, List.forall_mem_append.2 ⟨h.inside, h'.inside⟩⟩

/-- How a run ends that began behind some tokens. If it fails at a name, then the name is
undeclared and the last token that was moved over, be it before the run or in it. -/
def Follows (before : List Token) (compiler : Compiler) : EStateM.Result Error Compiler α → Prop
  | .ok _ reached => ∃ seen, InBody compiler seen reached
  | .error error reached => error.Blameless ∨ ∃ name seen,
    error = .undeclaredName reached.lexer.lineNumber name ∧
      compiler.symbols.resolve? name = none ∧ InBody compiler seen reached ∧
        (before ++ seen).getLast? = some (.identifier name)

/-- An action all of whose runs end like this behind some tokens. -/
def Tracks (before : List Token) (action : CompileM α) : Prop :=
  ∀ compiler, Follows before compiler (action compiler)

section

variable {before : List Token} {compiler middle : Compiler} {action : CompileM α}
  {next : α → CompileM β}

/-- What holds behind some tokens holds before them. -/
theorem Follows.behind {result : EStateM.Result Error Compiler α} {seen : List Token}
    (hread : InBody compiler seen middle) (h : Follows seen middle result) :
    Follows before compiler result := by
  cases result with
  | ok value reached =>
    obtain ⟨more, hmore⟩ := h
    exact ⟨seen ++ more, hread.trans hmore⟩
  | error error reached =>
    refine h.imp_right ?_
    rintro ⟨name, more, herror, hnone, hmore, hlast⟩
    refine ⟨name, seen ++ more, herror, hread.consumed.symbols_eq ▸ hnone, hread.trans hmore, ?_⟩
    rw [List.getLast?_append, hlast]
    rfl

/-- The tokens before a run matter only if it fails at once. -/
theorem Tracks.anywhere (h : Tracks [] action) : Tracks before action :=
  fun compiler => .behind (.refl compiler) (h compiler)

/-- A sequence ends as it should if its first part does and what comes behind tracks on its own: the
name that is failed at has been read by the part that fails. -/
theorem Follows.bind (h : Follows before compiler (action compiler))
    (hnext : ∀ value, Tracks [] (next value)) :
    Follows before compiler ((action >>= next) compiler) := by
  cases hrun : action compiler with
  | ok value reached =>
    rw [hrun] at h
    obtain ⟨seen, hread⟩ := h
    rw [bind_ok hrun]
    exact .behind hread ((hnext value).anywhere reached)
  | error error reached =>
    rw [bind_error hrun]
    rw [hrun] at h
    exact h

/-- The same for all runs at once. Only the first part can fail at a name that was read before. -/
theorem Tracks.bind (h : Tracks before action) (hnext : ∀ value, Tracks [] (next value)) :
    Tracks before (action >>= next) :=
  fun compiler => (h compiler).bind hnext

/-- An action that fails at no name, given what its successful runs move over. -/
theorem Blameless.tracks (h : Blameless action)
    (hok : ∀ compiler value reached, action compiler = .ok value reached →
      ∃ seen, InBody compiler seen reached) : Tracks before action := by
  intro compiler
  cases hrun : action compiler with
  | ok value reached => exact hok _ _ _ hrun
  | error error reached => exact .inl (h _ _ _ hrun)

/-- What does nothing moves over nothing. -/
theorem tracks_pure (value : α) : Tracks before (pure value : CompileM α) :=
  (blameless_pure value).tracks fun compiler _ _ hrun => by
    cases hrun
    exact ⟨[], .refl compiler⟩

/-- Names the action that goes on from the state, so that its cases can be split. -/
theorem tracks_look {next : Compiler → CompileM α}
    (hnext : ∀ compiler action, next compiler = action →
      Follows before compiler (action compiler)) : Tracks before (get >>= next) :=
  fun compiler => hnext compiler (next compiler) rfl

/-- A complaint about the current token. -/
theorem tracks_unexpected (wanted : String) : Tracks before (unexpected wanted : CompileM α) :=
  (blameless_unexpected wanted).tracks fun _ _ _ hrun => absurd hrun unexpected_ne_ok

/-- Behind the token that is moved over, the name in it is the last one. -/
theorem follows_advance_bind {token : Token} {rest : CompileM β}
    (hcurrent : compiler.current = some token) (hinside : subroutineKind? token = none)
    (hrest : Tracks [token] rest) :
    Follows before compiler ((advance >>= fun _ => rest) compiler) := by
  cases hrun : advance compiler with
  | ok _ reached =>
    rw [bind_ok hrun]
    exact .behind ((advance_consumed hcurrent hrun).inBody_single hinside) (hrest reached)
  | error error reached =>
    rw [bind_error hrun]
    exact .inl (blameless_advance _ _ _ hrun)

/-- Behind a name that was read, the rest may fail at that name. This is how names get from the
reading of them to the looking up. -/
theorem tracks_name_bind {next : String → CompileM β}
    (hnext : ∀ name, Tracks [.identifier name] (next name)) : Tracks before (name >>= next) := by
  intro compiler
  cases hrun : name compiler with
  | ok found reached =>
    rw [bind_ok hrun]
    exact .behind ((name_consumed hrun).inBody_single rfl) (hnext found reached)
  | error error reached =>
    rw [bind_error hrun]
    exact .inl (blameless_name _ _ _ hrun)

/-- The only step that fails at an undeclared name. -/
theorem tracks_lookup (name : String) : Tracks [.identifier name] (lookup name) := by
  refine tracks_look fun compiler action haction => ?_
  split at haction <;> subst haction
  · exact ⟨[], .refl compiler⟩
  · next hnone => exact .inr ⟨name, [], rfl, hnone, .refl compiler, rfl⟩

/-- A symbol is moved over. It is none that a subroutine begins with. -/
theorem tracks_expectSymbol (c : Char) : Tracks before (expectSymbol c) :=
  (blameless_expect (.symbol c)).tracks fun _ _ _ hrun =>
    ⟨_, (expect_consumed hrun).inBody_single rfl⟩

/-- A command moves over nothing. -/
theorem tracks_emit (command : Command) : Tracks before (emit command) :=
  (blameless_emit command).tracks fun _ _ _ hrun => ⟨_, (emit_consumed hrun).inBody⟩

/-- Several commands move over nothing, either. -/
theorem tracks_emitAll (commands : List Command) : Tracks before (emitAll commands) :=
  (blameless_emitAll commands).tracks fun _ _ _ hrun => ⟨_, (emitAll_consumed hrun).inBody⟩

/-- A rule in brackets. Behind the bracket no name is waiting to be looked up. -/
theorem tracks_between {rule : CompileM α} (hrule : Tracks [] rule) (opening closing : Char) :
    Tracks before (between opening rule closing) :=
  (tracks_expectSymbol _).bind fun _ => hrule.bind fun value =>
    (tracks_expectSymbol _).bind fun _ => tracks_pure value

/-- Further items behind commas, by induction on the rounds: every round moves over its comma, so an
item is behind a token that is no name. -/
theorem tracks_commaListFrom {item : CompileM α} (hitem : Tracks [] item) (found : List α)
    (rounds : Nat) : Tracks [] (commaListFrom item found rounds) := by
  induction rounds generalizing found with
  | zero => exact tracks_pure _
  | succ round ih =>
    intro compiler
    rw [commaListFrom, atSymbol_bind]
    split
    · next hcurrent =>
      refine follows_advance_bind
        (show compiler.current = some (.symbol ',') by simpa using hcurrent) rfl ?_
      exact hitem.anywhere.bind fun value => ih (value :: found)
    · exact tracks_pure _ compiler

/-- Items with commas in between. -/
theorem tracks_commaList {item : CompileM α} (hitem : Tracks [] item) (budget : Nat) :
    Tracks [] (commaList item budget) :=
  hitem.bind fun value => tracks_commaListFrom hitem [value] budget

/-- Each round of a loop begins with the token that asks for it. -/
theorem tracks_many {head : Token → Option α} {rule : α → CompileM Unit}
    (hrule : ∀ token found compiler, compiler.current = some token → head token = some found →
      Follows [] compiler (rule found compiler)) (rounds : Nat) :
    Tracks [] (many head rule rounds) := by
  induction rounds with
  | zero => exact tracks_pure ()
  | succ round ih =>
    refine tracks_look fun compiler action haction => ?_
    split at haction <;> subst haction
    · next found hfound =>
      obtain ⟨token, hcurrent, hhead⟩ := Option.bind_eq_some_iff.1 hfound
      exact (hrule token found compiler hcurrent hhead).bind fun _ => ih
    · exact tracks_pure () compiler

/-- Where commands go makes no difference to names. -/
theorem tracks_defer {rule : CompileM Unit} (hrule : Tracks [] rule) : Tracks [] (defer rule) := by
  intro compiler
  -- opening and closing a place for commands leaves the lexer and the table alone
  have hopened : InBody compiler [] compiler.opened := .of_still rfl rfl rfl rfl
  have hclosed : ∀ reached : Compiler,
      InBody reached [] { reached with deferred := reached.deferred.tail } :=
    fun reached => .of_still rfl rfl rfl rfl
  have hresult := hrule compiler.opened
  cases hrun : rule compiler.opened with
  | ok value reached =>
    rw [hrun] at hresult
    obtain ⟨seen, hread⟩ := hresult
    rw [defer_of_ok hrun]
    exact ⟨_, (hopened.trans hread).trans (hclosed reached)⟩
  | error error reached =>
    rw [hrun] at hresult
    rw [defer_of_error hrun]
    refine hresult.imp_right ?_
    rintro ⟨name, seen, herror, hnone, hread, hlast⟩
    have hwhole := (hopened.trans hread).trans (hclosed reached)
    exact ⟨name, seen, herror, hnone, by simpa using hwhole, hlast⟩

end

/-! ## Expressions -/

section Expressions

variable {before : List Token} {compiler : Compiler} {rule : CompileM Unit}

/-- A chain of terms. Each operator is moved over before the next term begins. -/
theorem tracks_chain (hterm : Tracks [] rule) (budget : Nat) : Tracks [] (chain rule budget) := by
  refine hterm.bind fun _ => tracks_many (fun token command compiler hcurrent hhead => ?_) budget
  obtain ⟨operator, rfl, -⟩ := exists_of_binaryOperator? hhead
  refine follows_advance_bind hcurrent rfl ?_
  exact hterm.anywhere.bind fun _ => tracks_emit command

/-- Arguments are a list, or nothing in front of the closing bracket. -/
theorem tracks_arguments (hrule : Tracks [] rule) (budget : Nat) :
    Tracks [] (arguments rule budget) := by
  intro compiler
  rw [arguments, atSymbol_bind]
  split
  · exact tracks_pure 0 compiler
  · exact (tracks_commaList hrule budget).bind (fun list => tracks_pure list.length) compiler

/-- A name in front of a dot need not be declared: it is the name of a class then. -/
theorem tracks_callee (first : String) : Tracks before (callee first) := by
  intro compiler
  rw [callee, atSymbol_bind]
  split
  · next hcurrent =>
    refine follows_advance_bind
      (show compiler.current = some (.symbol '.') by simpa using hcurrent) rfl ?_
    refine tracks_name_bind fun routine => tracks_look fun compiler action haction => ?_
    split at haction <;> subst haction
    · exact (tracks_emit _).bind (fun _ => tracks_pure _) compiler
    · exact tracks_pure _ compiler
  · exact (tracks_emit _).bind (fun _ compiler => tracks_pure _ compiler) compiler

/-- A call fails at the arguments or inside of them, but not at the name of who is called: that name
may belong to another class. -/
theorem tracks_subroutineCall (hrule : Tracks [] rule) (budget : Nat) (first : String) :
    Tracks before (subroutineCall rule budget first) := by
  refine (tracks_callee first).bind fun ⟨callee, receivers⟩ => ?_
  refine (tracks_between (tracks_arguments hrule budget) '(' ')').bind fun count => ?_
  split
  · exact tracks_emit _
  · intro compiler
    exact .inl (Error.blameless_tooManyArguments _ _)

/-- A term that begins with a name looks it up last. By then nothing but looks have come behind the
name, so it is still the last token. -/
theorem follows_namedTerm (hrule : Tracks [] rule) (budget : Nat) {first : String}
    (hcurrent : compiler.current = some (.identifier first)) :
    Follows before compiler (namedTerm rule budget first compiler) := by
  refine follows_advance_bind hcurrent rfl fun behind => ?_
  rw [atSymbol_bind, atSymbol_bind]
  split
  · exact tracks_subroutineCall hrule budget first behind
  · rw [atSymbol_bind]
    split
    · refine (tracks_lookup first).bind (fun symbol => ?_) behind
      refine (tracks_emit _).bind fun _ => (tracks_between hrule '[' ']').bind fun _ => ?_
      exact (tracks_emit _).bind fun _ => (tracks_emit _).bind fun _ => tracks_emit _
    · exact (tracks_lookup first).bind (fun symbol => tracks_emit _) behind

/-- Terms, by induction on the budget. All of them but those that begin with a name move over a
token that cannot be failed at. -/
theorem tracks_term (budget : Nat) : Tracks [] (term budget) := by
  induction budget with
  | zero => exact tracks_unexpected _
  | succ budget hterm =>
    have hrule := tracks_chain hterm budget
    refine tracks_look fun compiler action haction => ?_
    split at haction <;> subst haction
    -- the constants, each of them one token; then brackets, operators and names
    · next hcurrent => exact follows_advance_bind hcurrent rfl (tracks_emit _)
    · next hcurrent => exact follows_advance_bind hcurrent rfl (tracks_emitAll _)
    · next hcurrent => exact follows_advance_bind hcurrent rfl (tracks_emit _)
    · next hcurrent => exact follows_advance_bind hcurrent rfl (tracks_emit _)
    · next hcurrent => exact follows_advance_bind hcurrent rfl (tracks_emit _)
    · next hcurrent => exact follows_advance_bind hcurrent rfl (tracks_emit _)
    · exact tracks_between hrule '(' ')' compiler
    · next hcurrent =>
      exact follows_advance_bind hcurrent rfl (hterm.anywhere.bind fun _ => tracks_emit _)
    · next hcurrent =>
      exact follows_advance_bind hcurrent rfl (hterm.anywhere.bind fun _ => tracks_emit _)
    · next first hcurrent => exact follows_namedTerm hrule budget hcurrent
    · exact tracks_unexpected _ compiler

/-- An expression fails at no name that was read before it. -/
theorem tracks_expression (budget : Nat) : Tracks before (expression budget) :=
  (tracks_chain (tracks_term budget) budget).anywhere

end Expressions

/-! ## Statements -/

section Statements

variable {budget : Nat} {compiler : Compiler} {token : Token} {rule : CompileM Unit}
  (hcurrent : compiler.current = some token) (hinside : subroutineKind? token = none)

include hcurrent hinside

/-- An assignment looks up its target right behind reading it. The index and the value come
later. -/
theorem follows_assignment :
    Follows [] compiler (assignment budget compiler) := by
  -- both forms go on in the same way with their own commands at the end
  have hvalue : ∀ {commands : CompileM Unit}, Tracks [] commands →
      Tracks [] (do expectSymbol '='; expression budget; expectSymbol ';'; commands) := by
    intro commands hcommands
    refine (tracks_expectSymbol _).bind fun _ => (tracks_expression budget).bind fun _ => ?_
    exact (tracks_expectSymbol _).bind fun _ => hcommands
  refine follows_advance_bind hcurrent hinside (tracks_name_bind fun target => ?_)
  refine (tracks_lookup target).bind fun symbol compiler => ?_
  rw [atSymbol_bind]
  split
  · refine (tracks_defer (tracks_between (tracks_expression budget) '[' ']')).bind
      (fun index => hvalue ?_) compiler
    refine (tracks_emit _).bind fun _ => (tracks_emit _).bind fun _ => ?_
    refine (tracks_emitAll index).bind fun _ => (tracks_emit _).bind fun _ => ?_
    exact (tracks_emit _).bind fun _ => (tracks_emit _).bind fun _ => tracks_emit _
  · exact hvalue (tracks_emit _) compiler

/-- The start of a conditional or loop, which takes a number for its labels first. -/
theorem follows_guard {first skip : String → String} {next : String → CompileM Unit}
    (hnext : ∀ number, Tracks [] (next number)) :
    Follows [] compiler ((do
      let number ← freshLabel
      advance
      emit (.label (first number))
      between '(' (expression budget) ')'
      operation .not
      emit (.ifGoto (skip number))
      next number : CompileM Unit) compiler) := by
  -- taking a number changes neither the token nor the table
  have hnumbered : InBody compiler [] { compiler with labels := compiler.labels + 1 } :=
    .of_still rfl rfl rfl rfl
  refine .behind hnumbered (follows_advance_bind
    (show _ = some token from hcurrent) hinside ?_)
  refine (tracks_emit _).bind fun _ => ?_
  refine (tracks_between (tracks_expression budget) '(' ')').bind fun _ => ?_
  exact (tracks_emit _).bind fun _ => (tracks_emit _).bind fun _ => hnext _

/-- A loop: the condition and one block. -/
theorem follows_loop (hblock : Tracks [] rule) :
    Follows [] compiler (loop rule budget compiler) :=
  follows_guard hcurrent hinside fun _ => (tracks_between hblock '{' '}').bind fun _ =>
    (tracks_emit _).bind fun _ => tracks_emit _

/-- A conditional: the condition, a block, and maybe another one behind its keyword. -/
theorem follows_conditional (hblock : Tracks [] rule) :
    Follows [] compiler (conditional rule budget compiler) := by
  refine follows_guard hcurrent hinside fun _ => (tracks_between hblock '{' '}').bind fun _ => ?_
  refine (tracks_emit _).bind fun _ => (tracks_emit _).bind fun _ compiler => ?_
  rw [atKeyword_bind]
  split
  · next helse =>
    refine follows_advance_bind
      (show compiler.current = some (.keyword .elseKw) by simpa using helse) rfl ?_
    exact (tracks_between hblock '{' '}').bind fun _ => tracks_emit _
  · exact tracks_emit _ compiler

/-- A call as a statement. The name behind the keyword is that of a call, so it is not looked up as
a variable. -/
theorem follows_invocation :
    Follows [] compiler (invocation budget compiler) := by
  refine follows_advance_bind hcurrent hinside (tracks_name_bind fun first => ?_)
  refine (tracks_subroutineCall (tracks_expression budget) budget first).bind fun _ => ?_
  exact (tracks_expectSymbol _).bind fun _ => tracks_emit _

/-- A return, with or without an expression. -/
theorem follows_exit :
    Follows [] compiler (exit budget compiler) := by
  have hend : Tracks [] (emit .ret >>= fun _ => expectSymbol ';') :=
    (tracks_emit _).bind fun _ => tracks_expectSymbol _
  refine follows_advance_bind hcurrent hinside fun behind => ?_
  rw [atSymbol_bind]
  split
  · exact (tracks_emit _).bind (fun _ => hend) behind
  · exact (tracks_expression budget).bind (fun _ => hend) behind

end Statements

/-- **No statement fails at another name** than an undeclared one that it has just read. -/
theorem tracks_statements (budget : Nat) : Tracks [] (statements budget) := by
  -- a block inside a statement is one level deeper
  induction budget with
  | zero => exact tracks_unexpected _
  | succ budget hblock =>
    refine tracks_many (fun token kind compiler hcurrent hhead => ?_) budget
    have hinside : subroutineKind? token = none := by
      unfold statementKind? at hhead
      split at hhead <;> first | rfl | cases hhead
    cases kind with
    | assignment => exact follows_assignment hcurrent hinside
    | conditional => exact follows_conditional hcurrent hinside hblock
    | loop => exact follows_loop hcurrent hinside hblock
    | invocation => exact follows_invocation hcurrent hinside
    | exit => exact follows_exit hcurrent hinside

end Compiler

end Jack
