/-
Where the compiler notices that a source is wrong.

A complaint about a token comes as early as it can. The tokens before it begin a class, so
nothing was wrong with them; together with it they begin no class, whatever may follow. And a
complaint about the end of the input comes when all tokens begin a class and are none.

The first half is what the rules recognise. The second is about the line: the compiler looks
one token ahead and the lexer reads lines ahead, so that the line of the complaint is that of
the token has to be kept from pull to pull (`InStep`).
-/
import Jack.Proofs.FileBuild
import Jack.Proofs.Names
import Jack.Proofs.RecognisedClass

set_option autoImplicit false

namespace Jack.Compiler

open Syntax
open Lexer (Tells)

variable {source : Source} {compiler : Compiler} {α : Type}

/-! ## The compiler and the lexer in step -/

/-- The lexer of a compiler has told a beginning of its source, and all of it if there is no
current token. -/
structure InStep (source : Source) (compiler : Compiler) : Prop where
  aligned : compiler.lexer.Aligned
  told : ∃ told, Tells { lines := source } told compiler.lexer
  ended : compiler.current = none → compiler.lexer.Spent

/-- A step that leaves the lexer and the current token keeps the compiler in step. -/
theorem InStep.of_still {reached : Compiler} (h : InStep source compiler)
    (hlexer : reached.lexer = compiler.lexer) (hcurrent : reached.current = compiler.current) :
    InStep source reached where
  aligned := hlexer ▸ h.aligned
  told := hlexer ▸ h.told
  ended := by
    rw [hlexer, hcurrent]
    exact h.ended

/-- Whether it fails or not, moving to the next token calls the lexer once. -/
theorem lexer_after_advance (compiler : Compiler) :
    (after (advance compiler)).lexer = compiler.lexer.called .next := by
  unfold advance Lexer.called
  dsimp only
  cases compiler.lexer.next <;> rfl

/-- A pull brings the two in step, also if it is the first one, unless it leaves the compiler
without a token before the end. -/
theorem inStep_after_advance (haligned : compiler.lexer.Aligned)
    (htold : ∃ told, Tells { lines := source } told compiler.lexer)
    (hended : (after (advance compiler)).current = none →
      (after (advance compiler)).lexer.Spent) : InStep source (after (advance compiler)) where
  aligned := by
    rw [lexer_after_advance]
    exact (Lexer.answers_next haligned).aligned
  told := by
    obtain ⟨told, htold⟩ := htold
    rw [lexer_after_advance]
    exact ⟨_, htold.trans (Lexer.answers_next haligned).tells⟩
  ended := hended

/-- If there is no token to move to, the lexer has nothing left. -/
theorem spent_of_advance {reached : Compiler} (hrun : advance compiler = .ok () reached)
    (hnone : reached.current = none) : reached.lexer.Spent := by
  rw [advance] at hrun
  cases hpull : compiler.lexer.next with
  | error error lexer =>
    rw [hpull] at hrun
    cases hrun
  | ok current lexer =>
    rw [hpull] at hrun
    cases hrun
    rw [show current = none from hnone] at hpull
    exact Lexer.spent_of_next hpull

/-- Two states in a row that are in step with the source, if the first one is. -/
def StaysInStep (source : Source) (compiler : Compiler) (_ : Option Error) (reached : Compiler) :
    Prop := InStep source compiler → InStep source reached

/-- Silent actions leave the lexer and the current token. -/
theorem Silent.staysInStep {action : CompileM α} (h : Silent action) :
    Ends (StaysInStep source) action :=
  fun compiler hstep => hstep.of_still (h compiler).1 (h compiler).2.1

/-- A pull tells one more event, and becomes the current token. -/
theorem staysInStep_advance : Ends (StaysInStep source) advance := by
  intro compiler hstep
  refine inStep_after_advance hstep.aligned hstep.told ?_
  cases hrun : advance compiler with
  | ok _ reached => exact spent_of_advance hrun
  | error error reached =>
    -- a pull that fails leaves the current token, and at the end of the source none fails
    intro hnone
    rw [advance] at hrun
    split at hrun
    · cases hrun
    · next met lexer hpull =>
      cases hrun
      rw [(hstep.ended hnone).next_eq] at hpull
      cases hpull

/-- Of all the steps that rules are made of, only the pull of a token touches what is in step. -/
theorem keptBySteps_staysInStep : KeptBySteps (StaysInStep source) where
  refl := fun _ hstep => hstep
  trans := fun hfirst hrest hstep => hrest (hfirst hstep)
  complain := fun _ _ hstep => hstep
  advance := staysInStep_advance
  define := fun name type kind => (silent_define name type kind).staysInStep
  startSubroutine := fun _ hstep => hstep.of_still rfl rfl
  nameSubroutine := fun _ _ hstep => hstep.of_still rfl rfl
  nameClass := fun _ _ hstep => hstep.of_still rfl rfl
  note := fun _ => (silent_note _).staysInStep
  emit := fun _ => (silent_emit _).staysInStep

/-- Labels and deferred actions keep in step, since what they capture is silent. -/
theorem Special.staysInStep {action : CompileM α} (h : Special α action) :
    Ends (StaysInStep source) action := by
  cases h with
  | freshLabel => exact silent_freshLabel.staysInStep
  | emit command => exact (silent_emit command).staysInStep
  | @defer action haction =>
    intro compiler hstep
    have hkept := haction.ends keptBySteps_staysInStep (fun _ _ hnone => hnone.elim)
      compiler.opened (hstep.of_still rfl rfl)
    rw [after_defer]
    exact hkept.of_still rfl rfl

/-- Behind the first token the compiler stays in step to the end of the run. -/
theorem staysInStep_class (budget : Nat) :
    Ends (StaysInStep source) (classDeclaration budget >>= fun _ => finish) := by
  have hstatements : Ends (StaysInStep source) (statements budget) :=
    (composed_statements budget).ends keptBySteps_staysInStep fun _ _ => Special.staysInStep
  have hcomposed : Composed (fun _ => Ends (StaysInStep source))
      (classDeclaration budget >>= fun _ => finish) :=
    .bind (composed_classDeclaration (.base hstatements)) fun _ =>
      composed_finish (.base silent_close.staysInStep)
  exact hcomposed.ends keptBySteps_staysInStep fun _ _ haction => haction

/-- The first pull brings a fresh compiler in step. -/
theorem inStep_of_start {sink : Vm.Sink} {first : Compiler}
    (hfirst : advance (.start { lines := source } sink) = .ok () first) : InStep source first := by
  have hafter : after (advance (.start { lines := source } sink)) = first := by
    rw [hfirst, after]
  rw [← hafter]
  refine inStep_after_advance (Lexer.aligned_start source) ⟨[], .refl _⟩ ?_
  rw [hafter]
  exact spent_of_advance hfirst

/-! ## The line of the current token -/

/-- The lexer is at the line of the last token it told, and at the end of the source it has
read all lines. -/
theorem InStep.lineNumber_eq (h : InStep source compiler) {told : List Event}
    (htold : Tells { lines := source } told compiler.lexer) : ∃ read,
    source = read ++ compiler.lexer.lines ∧ compiler.lexer.lineNumber =
      ((lastToken? told).map Prod.snd).getD (numberedLines read) := by
  obtain ⟨read, hlines, hcount⟩ := htold.read
  rw [show (Lexer.linesRead { lines := source }) = 0 from rfl, Nat.zero_add] at hcount
  have hline := (h.aligned.standsBetween htold hcount).line
  rw [Lexer.reply] at hline
  exact ⟨read, hlines, Lexer.Reply.line.inj hline⟩

/-- The line of the current token is the one that the source has it on. -/
theorem InStep.event_eq (h : InStep source compiler) {consumed rest : List Token} {token : Token}
    (hresults : Lexer.results { lines := source } = (consumed ++ token :: rest).map Except.ok)
    (hahead : compiler.Ahead (token :: rest)) :
    (events source)[consumed.length]? = some (.token token compiler.lexer.lineNumber) := by
  obtain ⟨told, htold⟩ := h.told
  obtain ⟨read, -, hline⟩ := h.lineNumber_eq htold
  have hevents : events source = told ++ compiler.lexer.pending := htold.pending
  have hpending : compiler.lexer.pending.map Event.result = rest.map Except.ok := by
    rw [← Lexer.results_eq_pending h.aligned]
    exact Lexer.yields_iff_results.1 hahead.2
  -- what is pending are the tokens behind the current one, so that one was told last
  have hsplit : told.map Event.result = consumed.map Except.ok ++ [Except.ok token] := by
    rw [Lexer.results_eq_pending (Lexer.aligned_start source), htold.pending, List.map_append,
      hpending, List.append_cons, List.map_append] at hresults
    simpa using List.append_cancel_right hresults
  obtain ⟨front, last, rfl, hfront, hlast⟩ := List.map_eq_append_iff.1 hsplit
  obtain ⟨event, rfl, hevent⟩ := List.map_eq_singleton_iff.1 hlast
  have hlength : front.length = consumed.length := by simpa using congrArg List.length hfront
  cases event with
  | error met => cases hevent
  | token found line =>
    cases hevent
    rw [Lexer.lastToken?_append] at hline
    rw [hevents, ← hlength, hline, List.append_assoc, List.getElem?_append_right (Nat.le_refl _),
      Nat.sub_self]
    rfl

/-- Where every line can be read, every line has a number. -/
theorem numberedLines_of_readable (hreadable : ∀ cause, .unreadable cause ∉ source) :
    numberedLines source = source.length := by
  rw [numberedLines, List.countP_eq_length]
  intro line hline
  cases line with
  | text characters => rfl
  | unreadable cause => exact absurd hline (hreadable cause)

/-- At the end of the source everything was told and all lines were read. -/
theorem InStep.lineNumber_of_end (h : InStep source compiler) (hnone : compiler.current = none)
    (hreadable : ∀ cause, .unreadable cause ∉ source) : compiler.lexer.lineNumber =
      ((lastToken? (events source)).map Prod.snd).getD source.length := by
  obtain ⟨told, htold⟩ := h.told
  obtain ⟨read, hread, hline⟩ := h.lineNumber_eq htold
  have hspent := h.ended hnone
  have hall : events source = told := by
    have hpending : events source = told ++ compiler.lexer.pending := htold.pending
    rw [hpending, Lexer.pending, hspent.queue, hspent.lines]
    exact List.append_nil told
  rw [hspent.lines, List.append_nil] at hread
  rw [hline, hall, ← hread, numberedLines_of_readable hreadable]

/-! ## The earliest complaint -/

/-- A class can begin with these tokens. -/
def Begins (tokens : List Token) : Prop := ∃ tree : ClassTree, tokens <+: tree.tokens

/-- A complaint about a source, after some of its tokens and in front of the others. -/
structure EarliestComplaint (source : Source) (consumed rest : List Token) (line : Nat)
    (found : String) : Prop where
  /-- Nothing is wrong with the tokens before it. -/
  begins : Begins consumed
  /-- The token that it names makes a class impossible, and it stands on the line. -/
  token : ∀ token ∈ rest.head?, found = token.render ∧ ¬ Begins (consumed ++ [token]) ∧
    (events source)[consumed.length]? = some (.token token line)
  /-- If there is no token any more, the tokens are no class, and the line is that of the last
  token, or the number of lines. -/
  atEnd : rest = [] → (∀ tree : ClassTree, consumed ≠ tree.tokens) ∧
    line = ((lastToken? (events source)).map Prod.snd).getD source.length
  /-- The two are told apart by the name. -/
  found_eq : found = "end of input" ↔ rest = []

/-- The tokens before a refusal begin a class, since some sentence has them in front. -/
theorem begins_of_refused {consumed rest : List Token}
    (h : Refused classes AtEnd consumed rest) : Begins consumed := by
  obtain ⟨more, tree, htree⟩ := h.begins
  exact ⟨tree, more, htree.symm⟩

/-- With the refused token they begin none. -/
theorem not_begins_of_refused {consumed rest : List Token} {token : Token}
    (h : Refused classes AtEnd consumed (token :: rest)) : ¬ Begins (consumed ++ [token]) := by
  rintro ⟨tree, more, hmore⟩
  refine h.none tree.tokens ⟨tree, rfl⟩ [] rfl ⟨token :: more, ?_, rfl⟩
  rw [List.append_nil, ← hmore, List.append_assoc]
  rfl

/-- What the end of the input refuses is no class. -/
theorem ne_tokens_of_refused {consumed : List Token} (h : Refused classes AtEnd consumed [])
    (tree : ClassTree) : consumed ≠ tree.tokens := by
  rintro rfl
  exact h.none tree.tokens ⟨tree, rfl⟩ [] rfl ⟨[], rfl, rfl⟩

/-- No token of a source is written like the end of the input is named: only string constants
have blanks in them, and they begin with a quote. -/
theorem render_ne_end {token : Token} {line : Nat} (hmem : .token token line ∈ events source) :
    token.render ≠ "end of input" := by
  have hblank : ∀ text : String, (∀ c ∈ text.toList, GoesOn c) → text ≠ "end of input" := by
    rintro _ hword rfl
    exact absurd (hword ' ' (by decide)) (by decide)
  cases token with
  | keyword keyword => exact hblank _ keyword.goesOn
  | identifier name => exact hblank _ (isWord_of_mem_eventsFrom hmem).goesOn
  | integer value =>
    exact hblank _ fun c hc => (goesOn_of_isDigit (isDigit_of_mem_toString hc)).1
  | symbol c =>
    intro hrender
    have hlength : (String.singleton c).length = "end of input".length :=
      congrArg String.length hrender
    rw [String.length_singleton] at hlength
    exact absurd hlength (by decide)
  | string content =>
    intro hrender
    have hfirst := congrArg (fun text : String => text.toList.head?) hrender
    simp [Token.render] at hfirst

/-- **The compiler complains as early as it can.** If a source lexes without an error and the
compiler complains about what comes next, then the tokens before that begin a class, and with
what comes next they do not. The complaint names what comes next and the line it stands on. -/
theorem compile_complains_early {source : Source} {sink : Vm.Sink} {tokens : List Token}
    (hlexes : Lexer.results { lines := source } = tokens.map Except.ok) {line : Nat}
    {wanted found : String} {reached : Compiler}
    (hrun : compile (.start { lines := source } sink) =
      .error (.expected line wanted found) reached) :
    ∃ consumed rest, tokens = consumed ++ rest ∧ reached.Ahead rest ∧
      EarliestComplaint source consumed rest line found := by
  have hyields := Lexer.yields_iff_results.2 hlexes
  obtain ⟨first, hfirst, hreached⟩ := advance_of_yields
    (show (start { lines := source } sink).lexer.Yields tokens from hyields)
  rw [compile_eq, compileWithin_eq, bind_ok hfirst] at hrun
  have hbudget : tokens.length + 1 ≤ (start { lines := source } sink).lexer.budget + 2 :=
    Nat.succ_le_succ (Nat.le_succ_of_le hyields.length_le_budget)
  -- of the number itself nothing else matters
  generalize (start { lines := source } sink).lexer.budget + 2 = budget at hrun hbudget
  have hstays := staysInStep_class budget first (inStep_of_start hfirst)
  have hstep : InStep source reached := by rwa [hrun] at hstays
  obtain ⟨⟨rfl, rfl⟩, consumed, rest, rfl, hahead, hrefused⟩ :=
    ((recognises_source hbudget).settles first tokens (Nat.le_refl _) hreached.ahead).expected
      _ _ _ _ hrun
  -- the next token, the end of the input, and that the message tells them apart
  refine ⟨consumed, rest, rfl, hahead, begins_of_refused hrefused, ?_, ?_, ?_⟩
  · rintro token htoken
    obtain ⟨behind, rfl⟩ := List.head?_eq_some_iff.1 htoken
    rw [hahead.1]
    exact ⟨rfl, not_begins_of_refused hrefused, hstep.event_eq hlexes hahead⟩
  · rintro rfl
    exact ⟨ne_tokens_of_refused hrefused, hstep.lineNumber_of_end hahead hyields.readable⟩
  · cases rest with
    | nil =>
      rw [show reached.current = none from hahead]
      exact ⟨fun _ => rfl, fun _ => rfl⟩
    | cons token behind =>
      have hevent := hstep.event_eq hlexes hahead
      have hrender := render_ne_end (List.mem_of_getElem? hevent)
      rw [hahead.1]
      exact ⟨fun heq => absurd heq hrender, fun heq => nomatch heq⟩

/-- A field is declared without a name. -/
def nameless : Source := [.text "class A \x7b".toList, .text "  field int 5;".toList]

/-- The class is not closed, and a line without tokens follows. -/
def unclosed : Source := [.text "class A \x7b".toList, .text "  // no more".toList]

/-- A missing name is complained about at the token in its place, and a missing brace at the end of
the input, with the line of the last token. -/
theorem complains_early_nameless_unclosed :
    (∃ reached, compile (.start { lines := nameless } {}) =
        .error (.expected 2 "identifier" "5") reached ∧
      ∃ consumed rest, [.keyword .classKw, .identifier "A", .symbol '{', .keyword .fieldKw,
          .keyword .intKw, .integer 5, .symbol ';'] = consumed ++ rest ∧ reached.Ahead rest ∧
        EarliestComplaint nameless consumed rest 2 "5") ∧
    ∃ reached, compile (.start { lines := unclosed } {}) =
        .error (.expected 1 "\x7d" "end of input") reached ∧
      ∃ consumed rest, [.keyword .classKw, .identifier "A", .symbol '{'] = consumed ++ rest ∧
        reached.Ahead rest ∧ EarliestComplaint unclosed consumed rest 1 "end of input" := by
  constructor
  · have hrun : raised (compile (.start { lines := nameless } {})) =
        some (.expected 2 "identifier" "5") := by decide +kernel
    refine ⟨_, eq_error_of_raised hrun, compile_complains_early ?_ (eq_error_of_raised hrun)⟩
    rw [Lexer.results_eq_pending (Lexer.aligned_start _)]
    rfl
  · have hrun : raised (compile (.start { lines := unclosed } {})) =
        some (.expected 1 "\x7d" "end of input") := by decide +kernel
    refine ⟨_, eq_error_of_raised hrun, compile_complains_early ?_ (eq_error_of_raised hrun)⟩
    rw [Lexer.results_eq_pending (Lexer.aligned_start _)]
    rfl

end Jack.Compiler
