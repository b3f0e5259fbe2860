/-
The layout of a source decides nothing but the line that an error names.

Two sources that lex to the same tokens may differ in everything else: where their lines end, how
they are spaced, what their comments say. The compiler sees of a source what its lexer yields, and
the line that the lexer is on. So two compilers are `Alike` if they differ in their lexers only
and their lexers yield the same tokens, and an action goes in `Lockstep` if from two such states
it ends in two such states, with the same value or with errors that are the same up to the line.

The steps that do not touch the lexer go in lockstep because they cannot see it (`Ignores`), the
pull of a token does because the tokens are the same, and the failing steps add only the line.
With that, every rule of the grammar does. The one thing left is the budget of a run, which is
taken from the text of the source: it differs between the two runs, and decides nothing.
-/
import Jack.Proofs.Budget

set_option autoImplicit false

namespace Jack

/-! ## Errors up to their line -/

namespace Error

/-- An error with another line, if it names one. -/
def withLine (line : Nat) : Error → Error
  | invalidCharacter _ character => invalidCharacter line character
  | invalidToken _ lexeme => invalidToken line lexeme
  | integerOutOfRange _ lexeme => integerOutOfRange line lexeme
  | unterminatedString _ => unterminatedString line
  | expected _ wanted found => expected line wanted found
  | tooManyArguments _ callee => tooManyArguments line callee
  | duplicateName found name => duplicateName (found.map fun _ => line) name
  | undeclaredName _ name => undeclaredName line name
  | wrongTokenKind wanted found => wrongTokenKind wanted found
  | io cause => io cause

/-- Two errors that are the same up to the line. -/
def SameButLine (error other : Error) : Prop := ∃ line, other = error.withLine line

/-- An error is itself with its own line. One that names no line is itself with any. -/
theorem SameButLine.refl (error : Error) : error.SameButLine error := by
  cases error with
  | invalidCharacter line | invalidToken line | integerOutOfRange line | unterminatedString line
  | expected line | tooManyArguments line | undeclaredName line => exact ⟨line, rfl⟩
  | duplicateName line name =>
    cases line with
    | none => exact ⟨0, rfl⟩
    | some line => exact ⟨line, rfl⟩
  | wrongTokenKind | io => exact ⟨0, rfl⟩

/-- The category of an error does not depend on its line. -/
theorem SameButLine.category_eq {error other : Error} (h : error.SameButLine other) :
    other.category = error.category := by
  obtain ⟨line, rfl⟩ := h
  cases error <;> rfl

/-- A message names the line right in front of its text, or names none. -/
theorem detail_withLine (error : Error) (line : Nat) :
    error.withLine line = error ∨ ∃ (found : Nat) (text : String),
      error.detail = atLine found text ∧ (error.withLine line).detail = atLine line text := by
  cases error with
  | invalidCharacter | invalidToken | integerOutOfRange | unterminatedString | expected
  | tooManyArguments | undeclaredName => exact .inr ⟨_, _, rfl, rfl⟩
  | duplicateName found name =>
    cases found with
    | none => exact .inl rfl
    | some found => exact .inr ⟨_, _, rfl, rfl⟩
  | wrongTokenKind | io => exact .inl rfl

/-- Two messages of a category that differ at most in the number behind `line `. -/
def SameWording (category : ErrorCategory) (message other : String) : Prop :=
  message = other ∨ ∃ (line line' : Nat) (text : String),
    message = category.label ++ atLine line text ∧ other = category.label ++ atLine line' text

/-- Errors that are the same up to the line say the same up to the number. -/
theorem SameButLine.sameWording {error other : Error} (h : error.SameButLine other) :
    SameWording error.category error.message other.message := by
  have hcategory := h.category_eq
  obtain ⟨line, rfl⟩ := h
  rcases detail_withLine error line with hsame | ⟨found, text, hdetail, hdetail'⟩
  · exact .inl (by rw [hsame])
  · refine .inr ⟨found, line, text, ?_, ?_⟩
    · rw [message, hdetail]
    · rw [message, hcategory, hdetail']

end Error

namespace Compiler

open Vm (Command)

variable {α β : Type} {compiler other : Compiler}

/-! ## Two runs -/

/-- Two states that differ in their lexers only, and these yield the same tokens. -/
structure Alike (compiler other : Compiler) : Prop where
  state : other = { compiler with lexer := other.lexer }
  tokens : ∃ tokens, compiler.lexer.Yields tokens ∧ other.lexer.Yields tokens

/-- A rule looks at the token ahead, the names and the table, and not at the lexer. -/
theorem Alike.sameView (h : Alike compiler other) : SameView compiler other := by
  rw [h.state]
  exact ⟨rfl, rfl, rfl, rfl⟩

/-- Two runs that end alike. -/
inductive EndAlike : EStateM.Result Error Compiler α → EStateM.Result Error Compiler α → Prop where
  | ok {reached final : Compiler} (value : α) (h : Alike reached final) :
      EndAlike (.ok value reached) (.ok value final)
  | error {reached final : Compiler} {error error' : Error} (herror : error.SameButLine error')
      (h : Alike reached final) : EndAlike (.error error reached) (.error error' final)

/-- An action that ends alike from every two states that are alike. -/
def Lockstep (action : CompileM α) : Prop :=
  ∀ compiler other, Alike compiler other → EndAlike (action compiler) (action other)

/-! ## Steps -/

theorem lockstep_pure (value : α) : Lockstep (pure value) := fun _ _ h => .ok value h

/-- One action after the other. Where the first one fails, it fails in both runs, and the second one
is run in none. -/
theorem Lockstep.bind {action : CompileM α} {next : α → CompileM β} (hfirst : Lockstep action)
    (hnext : ∀ value, Lockstep (next value)) : Lockstep (action >>= next) := by
  intro compiler other h
  have hends := hfirst compiler other h
  simp only [Bind.bind, EStateM.bind]
  generalize action compiler = result, action other = result' at hends
  cases hends with
  | ok value hreached => exact hnext value _ _ hreached
  | error herror hreached => exact .error herror hreached

/-- An action that decides by what it sees decides the same in both runs. -/
theorem lockstep_look {next : Compiler → CompileM α}
    (hview : ∀ {compiler other : Compiler}, SameView compiler other → next compiler = next other)
    (hnext : ∀ compiler, Lockstep (next compiler)) : Lockstep (get >>= next) := by
  intro compiler other h
  rw [get_bind, get_bind, ← hview h.sameView]
  exact hnext compiler compiler other h

/-- Both runs complain about the same, each with the line that its lexer is on. -/
theorem lockstep_complain (complaint : Complaint) : Lockstep (complain complaint : CompileM α) := by
  intro compiler other h
  -- the line is all that a complaint takes from the lexer
  refine .error ⟨other.lexer.lineNumber, ?_⟩ h
  cases complaint <;> rfl

/-- The two lexers yield the same token, or both the end, which they then yield again. -/
theorem lockstep_advance : Lockstep advance := by
  intro compiler other h
  obtain ⟨tokens, hyields, hyields'⟩ := h.tokens
  rw [h.state]
  -- two lexers with the same tokens left are both at the end or both in front of the next one
  cases hyields with
  | done hpull =>
    cases hyields' with
    | done hpull' =>
      simp only [advance, hpull, hpull']
      -- a lexer can be pulled behind its end, and is after a failed run
      refine .ok () ⟨rfl, [], ?_, ?_⟩
      · exact .done (Lexer.spent_of_next hpull).next_eq
      · exact .done (Lexer.spent_of_next hpull').next_eq
  | more hpull hrest =>
    cases hyields' with
    | more hpull' hrest' =>
      simp only [advance, hpull, hpull']
      exact .ok () ⟨rfl, _, hrest, hrest'⟩

/-- The tables are the same, so a name is refused in both runs or in none. -/
theorem lockstep_define (name type : String) (kind : VarKind) :
    Lockstep (define name type kind) := by
  intro compiler other h
  rw [h.state]
  unfold define
  dsimp only
  split
  · exact .ok () ⟨rfl, h.tokens⟩
  · exact .error ⟨other.lexer.lineNumber, rfl⟩ ⟨rfl, h.tokens⟩

/-! ## Steps that do not see the lexer -/

/-- A result with another lexer in its state. -/
def onLexer (lexer : Lexer) : EStateM.Result Error Compiler α → EStateM.Result Error Compiler α
  | .ok value compiler => .ok value { compiler with lexer }
  | .error error compiler => .error error { compiler with lexer }

/-- An action that neither uses nor changes the lexer. -/
def Ignores (action : CompileM α) : Prop :=
  ∀ (compiler : Compiler) (lexer : Lexer),
    action { compiler with lexer } = onLexer lexer (action compiler)

/-- One result with either lexer in its state, if both lexers yield the same tokens. -/
theorem endAlike_onLexer {lexer lexer' : Lexer}
    (htokens : ∃ tokens, lexer.Yields tokens ∧ lexer'.Yields tokens)
    (result : EStateM.Result Error Compiler α) :
    EndAlike (onLexer lexer result) (onLexer lexer' result) := by
  cases result with
  | ok value reached => exact .ok value ⟨rfl, htokens⟩
  | error error reached => exact .error (.refl error) ⟨rfl, htokens⟩

/-- An action that cannot see the lexer cannot see the difference. -/
theorem Ignores.lockstep {action : CompileM α} (h : Ignores action) : Lockstep action := by
  intro compiler other halike
  have hhere : action compiler = onLexer compiler.lexer (action compiler) :=
    h compiler compiler.lexer
  have hthere : action other = onLexer other.lexer (action compiler) := by
    rw [← h compiler other.lexer, ← halike.state]
  -- both results are one result, with the lexer it was run with
  have hends := endAlike_onLexer halike.tokens (action compiler)
  rwa [← hhere, ← hthere] at hends

theorem ignores_freshLabel : Ignores freshLabel := fun _ _ => rfl

theorem ignores_note (event : LogEvent) : Ignores (note event) := fun _ _ => rfl

/-- A command is captured or written, and neither depends on the lexer. -/
theorem ignores_emit (command : Command) : Ignores (emit command) := by
  intro compiler lexer
  obtain ⟨_, writer, symbols, current, className, subroutineName, labels, deferred⟩ := compiler
  cases deferred with
  | cons captured outer => rfl
  | nil =>
    unfold emit
    dsimp only
    cases writer.write command <;> rfl

/-- Closing is about the writer only. -/
theorem ignores_close : Ignores close := by
  intro compiler lexer
  unfold close
  dsimp only
  cases compiler.writer.close <;> rfl

/-- A list that is opened for commands is the same list in both states. -/
theorem Lockstep.defer {action : CompileM Unit} (h : Lockstep action) :
    Lockstep (defer action) := by
  intro compiler other halike
  have hopened : Alike compiler.opened other.opened := by
    refine ⟨?_, halike.tokens⟩
    rw [halike.state]
    rfl
  have hends := h compiler.opened other.opened hopened
  generalize hrun : action compiler.opened = result, hrun' : action other.opened = result' at hends
  cases hends with
  | ok _ hreached =>
    rw [defer_of_ok hrun, defer_of_ok hrun', hreached.state]
    exact .ok _ ⟨rfl, hreached.tokens⟩
  | error herror hreached =>
    rw [defer_of_error hrun, defer_of_error hrun', hreached.state]
    exact .error herror ⟨rfl, hreached.tokens⟩

/-! ## Whole runs -/

/-- What is put together from parts that go in lockstep does so, by induction on how it is put
together. -/
theorem Composed.lockstep {Base : (α : Type) → CompileM α → Prop}
    (hbase : ∀ (α : Type) (action : CompileM α), Base α action → Lockstep action)
    {action : CompileM α} (h : Composed Base action) : Lockstep action := by
  induction h with
  | base haction => exact hbase _ _ haction
  | pure value => exact lockstep_pure value
  | bind _ _ ihfirst ihnext => exact ihfirst.bind ihnext
  | look hview _ ih => exact lockstep_look hview ih
  | complain complaint => exact lockstep_complain complaint
  | advance => exact lockstep_advance
  | define name type kind => exact lockstep_define name type kind
  | startSubroutine | nameSubroutine | nameClass => exact Ignores.lockstep fun _ _ => rfl
  | note _ => exact (ignores_note _).lockstep
  | emit _ => exact (ignores_emit _).lockstep

/-- Labels are numbered alike in both runs, and lists are opened and closed alike. -/
theorem Special.lockstep {action : CompileM α} (h : Special α action) : Lockstep action := by
  cases h with
  | freshLabel => exact ignores_freshLabel.lockstep
  | emit command => exact (ignores_emit command).lockstep
  | defer haction => exact (haction.lockstep fun _ _ hfalse => hfalse.elim).defer

/-- Within one budget, a run of the compiler goes in lockstep. -/
theorem lockstep_compileWithin (budget : Nat) : Lockstep (compileWithin budget) := by
  have hstatements := (composed_statements budget).lockstep fun _ _ => Special.lockstep
  have hcomposed : Composed (fun _ => Lockstep) (compileWithin budget) :=
    composed_compileWithin (.base hstatements) (.base ignores_close.lockstep)
  exact hcomposed.lockstep fun _ _ haction => haction

/-- The two budgets differ, but both runs are the same within the sum of them. -/
theorem lockstep_compile : Lockstep compile := by
  intro compiler other h
  have hbudget : compiler.lexer.budget < compiler.lexer.budget + other.lexer.budget + 1 := by omega
  have hbudget' : other.lexer.budget < compiler.lexer.budget + other.lexer.budget + 1 := by omega
  rw [compile_eq_compileWithin hbudget, compile_eq_compileWithin hbudget']
  exact lockstep_compileWithin _ compiler other h

/-! ## The layout of a source -/

/-- What two runs have in common: the sinks, whether they fail, and how they fail. -/
structure SameOutcome (result other : EStateM.Result Error Compiler Unit) : Prop where
  /-- The sinks took the same bytes, also if the runs failed. -/
  sink : (after result).writer.sink = (after other).writer.sink
  /-- Both runs fail, or none does. -/
  fails : (raised result).isSome = (raised other).isSome
  /-- Their errors are of one category and say the same, but for the line. -/
  errors : ∀ error error', raised result = some error → raised other = some error' →
    error.category = error'.category ∧
      Error.SameWording error.category error.message error'.message

/-- What can be seen of two runs that end alike. -/
theorem EndAlike.sameOutcome {result other : EStateM.Result Error Compiler Unit}
    (h : EndAlike result other) : SameOutcome result other := by
  cases h with
  | ok _ hreached =>
    refine ⟨by rw [hreached.state]; rfl, rfl, ?_⟩
    rintro _ _ ⟨⟩
  | error herror hreached =>
    refine ⟨by rw [hreached.state]; rfl, rfl, ?_⟩
    rintro _ _ ⟨⟩ ⟨⟩
    exact ⟨herror.category_eq.symm, herror.sameWording⟩

/-- **The layout decides nothing.** Two sources that lex to the same tokens are compiled to the
same bytes, with the same success, and with the same failure up to the line it names. -/
theorem sameOutcome_of_sameTokens {source source' : Source} {tokens : List Token}
    (hsource : Lexer.results { lines := source } = tokens.map Except.ok)
    (hsource' : Lexer.results { lines := source' } = tokens.map Except.ok) (sink : Vm.Sink) :
    SameOutcome (compile (start { lines := source } sink))
      (compile (start { lines := source' } sink)) := by
  have halike : Alike (start { lines := source } sink) (start { lines := source' } sink) :=
    ⟨rfl, tokens, Lexer.yields_iff_results.2 hsource, Lexer.yields_iff_results.2 hsource'⟩
  exact (lockstep_compile _ _ halike).sameOutcome

/-- A class that returns a variable it does not declare, on one line. -/
def dense : String := "class A{function int f(){return x;}}"

/-- The same class on several lines and with comments. -/
def spread : String :=
  "// A class
  class A /* with
  one function */
  {function int f()
  {return x;}}"

/-- The tokens of both. -/
def undeclaredTokens : List Token :=
  [.keyword .classKw, .identifier "A", .symbol '{', .keyword .functionKw, .keyword .intKw,
    .identifier "f", .symbol '(', .symbol ')', .symbol '{', .keyword .returnKw, .identifier "x",
    .symbol ';', .symbol '}', .symbol '}']

/-- Both runs write the head of the function and fail, on the first line and on the fifth. -/
theorem sameOutcome_dense_spread :
    HasTokens dense undeclaredTokens ∧ HasTokens spread undeclaredTokens ∧
    (after (compile (start (.ofText dense) {}))).writer.sink.text = "function A.f 0\n" ∧
    raised (compile (start (.ofText dense) {})) = some (.undeclaredName 1 "x") ∧
    raised (compile (start (.ofText spread) {})) = some (.undeclaredName 5 "x") ∧
    SameOutcome (compile (start (.ofText dense) {})) (compile (start (.ofText spread) {})) := by
  have hdense : HasTokens dense undeclaredTokens := .of_pulled 15 (by decide +kernel)
  have hspread : HasTokens spread undeclaredTokens := .of_pulled 15 (by decide +kernel)
  refine ⟨hdense, hspread, by decide +kernel, by decide +kernel, by decide +kernel, ?_⟩
  exact sameOutcome_of_sameTokens hdense hspread {}

end Compiler

end Jack
