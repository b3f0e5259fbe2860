/-
On which line the compiler reports a name that it rejects.

The line is taken from the lexer, and the lexer is one token ahead of what was read. So the line
of the error is not that of the name. It is that of the token behind the name, or behind the
whole list for a name in a list of declarations, and of the last token if nothing stands behind
(`lineBehind`). It is never above the line of the name, and it is below it as soon as a line ends
in between.
-/
import Jack.Proofs.EarliestErrors
import Jack.Proofs.RejectedNames

set_option autoImplicit false

namespace Jack

/-! ## Lines of tokens -/

/-- A token does not stand below another one. -/
def Event.NotBelow (event other : Event) : Prop :=
  ∀ first line second line', event = .token first line → other = .token second line' → line ≤ line'

/-- A token has the line of the lexeme that it was read from. -/
theorem Lexeme.line_of_event {lexeme : Lexeme} {token : Token} {line : Nat}
    (h : lexeme.event = .token token line) : line = lexeme.line := by
  unfold Lexeme.event at h
  split at h <;> cases h
  rfl

/-- The lines of tokens do not go down. -/
theorem pairwise_eventsFrom (inComment : Bool) (linesRead : Nat) (source : Source) :
    (eventsFrom inComment linesRead source).Pairwise Event.NotBelow := by
  have herror : ∀ met other, Event.NotBelow (.error met) other := by
    rintro met other first line second line' ⟨⟩
  fun_induction eventsFrom inComment linesRead source with
  | case1 => exact .nil
  | case2 inComment linesRead cause rest ih => exact .cons (fun other _ => herror _ other) ih
  | case3 inComment linesRead characters rest fault hscan ih =>
    exact .cons (fun other _ => herror _ other) ih
  | case4 inComment linesRead characters rest scan hscan ih =>
    refine List.pairwise_append.2 ⟨?_, ih, ?_⟩
    · refine List.pairwise_map.2 (List.pairwise_of_forall fun text other => ?_)
      intro first line second line' hfirst hsecond
      rw [Lexeme.line_of_event hfirst, Lexeme.line_of_event hsecond]
    · intro event hevent other hother first line second line' hfirst hsecond
      obtain ⟨text, -, rfl⟩ := List.mem_map.1 hevent
      rw [Lexeme.line_of_event hfirst]
      have hfollows := follows_of_mem_eventsFrom hother
      rwa [hsecond] at hfollows

/-- The line of the token behind a number of tokens, or of the last token if there are not so
many. -/
def lineBehind (source : Source) (count : Nat) : Option Nat :=
  (((events source)[count]?.bind Event.token?).or (lastToken? (events source))).map Prod.snd

/-- The token of an event, with its line. -/
theorem Event.token?_eq_some_iff {event : Event} {found : Token} {line : Nat} :
    event.token? = some (found, line) ↔ event = .token found line := by
  cases event with
  | token token line => simp [Event.token?]
  | error met => simp [Event.token?]

/-- The tokens among the events are those that the events tell. -/
theorem mem_filterMap_token?_iff {told : List Event} {found : Token} {line : Nat} :
    (found, line) ∈ told.filterMap Event.token? ↔ .token found line ∈ told := by
  simp only [List.mem_filterMap, Event.token?_eq_some_iff, exists_eq_right]

/-- The last token that was told is one of those that were told. -/
theorem mem_of_lastToken? {told : List Event} {found : Token} {line : Nat}
    (h : lastToken? told = some (found, line)) : .token found line ∈ told :=
  mem_filterMap_token?_iff.1 (List.mem_of_getLast? h)

/-- The line behind a token is not above it. -/
theorem le_of_lineBehind {source : Source} {count position line own : Nat} {token : Token}
    (hown : (events source)[position]? = some (.token token own)) (hlt : position < count)
    (hline : lineBehind source count = some line) : own ≤ line := by
  obtain ⟨hposition, htoken⟩ := List.getElem?_eq_some_iff.1 hown
  have hsplit : events source = (events source).take position ++
      .token token own :: (events source).drop (position + 1) := by
    rw [← htoken, List.getElem_cons_drop, List.take_append_drop]
  have hbelow : ∀ found line', .token found line' ∈ (events source).drop (position + 1) →
      own ≤ line' := by
    have hordered := pairwise_eventsFrom false 0 source
    rw [← events, hsplit, List.pairwise_append, List.pairwise_cons] at hordered
    exact fun found line' hmem => hordered.2.1.1 _ hmem token own found line' rfl rfl
  -- the line is that of a later token, or of the last one, which may be the name itself
  obtain ⟨⟨found, line'⟩, hfound, rfl⟩ := Option.map_eq_some_iff.1 hline
  rcases Option.or_eq_some_iff.1 hfound with hnext | ⟨-, hlast⟩
  · obtain ⟨event, hevent, htoken⟩ := Option.bind_eq_some_iff.1 hnext
    rw [Event.token?_eq_some_iff.1 htoken] at hevent
    refine hbelow found line' (List.mem_of_getElem? (i := count - (position + 1)) ?_)
    rw [List.getElem?_drop, Nat.add_sub_cancel' hlt, hevent]
  · rw [hsplit, List.append_cons, Lexer.lastToken?_append] at hlast
    rcases Option.or_eq_some_iff.1 hlast with hbehind | ⟨-, hself⟩
    · exact hbelow found line' (mem_of_lastToken? hbehind)
    · rw [Lexer.lastToken?_append] at hself
      cases hself
      exact Nat.le_refl own

namespace Lexer

variable {source : Source} {tokens : List Token}

/-- A source that lexes without an error has a line for each of its tokens. -/
theorem event_of_token (hlexes : results { lines := source } = tokens.map Except.ok)
    {position : Nat} {token : Token} (htoken : tokens[position]? = some token) :
    ∃ line, (events source)[position]? = some (.token token line) := by
  have hresults : (events source).map Event.result = tokens.map Except.ok :=
    (results_eq_pending (aligned_start source)).symm.trans hlexes
  have hresult := congrArg (fun list => list[position]?) hresults
  simp only [List.getElem?_map, htoken, Option.map_some, Option.map_eq_some_iff] at hresult
  obtain ⟨event, hevent, hok⟩ := hresult
  cases event with
  | error met => cases hok
  | token found line =>
    cases hok
    exact ⟨line, hevent⟩

theorem length_events (hlexes : results { lines := source } = tokens.map Except.ok) :
    (events source).length = tokens.length := by
  have hresults : (events source).map Event.result = tokens.map Except.ok :=
    (results_eq_pending (aligned_start source)).symm.trans hlexes
  simpa using congrArg List.length hresults

end Lexer

namespace Compiler

open Syntax (RejectedAt)

variable {source : Source} {compiler : Compiler} {tokens : List Token}

/-- A compiler in step with a source without errors has tokens ahead, perhaps none. -/
theorem InStep.exists_ahead (h : InStep source compiler)
    (hlexes : Lexer.results { lines := source } = tokens.map Except.ok) :
    ∃ rest, compiler.Ahead rest := by
  obtain ⟨told, htold⟩ := h.told
  rw [Lexer.results_eq_pending (Lexer.aligned_start source), htold.pending, List.map_append,
    eq_comm, List.map_eq_append_iff] at hlexes
  obtain ⟨-, rest, -, -, hrest⟩ := hlexes
  have hyields : compiler.lexer.Yields rest := by
    rw [Lexer.yields_iff_results, Lexer.results_eq_pending h.aligned, hrest]
  cases hcurrent : compiler.current with
  | none => exact ⟨[], hcurrent⟩
  | some token => exact ⟨token :: rest, hcurrent, hyields⟩

/-- The line of the lexer is the one behind what was read. -/
theorem InStep.lineBehind_eq (h : InStep source compiler) {consumed rest : List Token}
    (hlexes : Lexer.results { lines := source } = (consumed ++ rest).map Except.ok)
    (hahead : compiler.Ahead rest) (hne : consumed ≠ []) :
    lineBehind source consumed.length = some compiler.lexer.lineNumber := by
  cases rest with
  | cons token others => simp [lineBehind, h.event_eq hlexes hahead, Event.token?]
  | nil =>
    rw [List.append_nil] at hlexes
    have hline := h.lineNumber_of_end hahead (Lexer.yields_iff_results.2 hlexes).readable
    have hnone : (events source)[consumed.length]? = none := by
      rw [List.getElem?_eq_none_iff, Lexer.length_events hlexes]
    -- there is a last token, since there is a first one
    obtain ⟨token, others, rfl⟩ := List.exists_cons_of_ne_nil hne
    obtain ⟨own, hown⟩ := Lexer.event_of_token hlexes List.getElem?_cons_zero
    obtain ⟨last, hlast⟩ : ∃ last, lastToken? (events source) = some last := by
      rw [← Option.ne_none_iff_exists', lastToken?, ne_eq, List.getLast?_eq_none_iff,
        List.filterMap_eq_nil_iff]
      exact fun hall => Option.some_ne_none (token, own) (hall _ (List.mem_of_getElem? hown))
    rw [lineBehind, hnone, hline, hlast]
    rfl

/-- **A rejected name is reported on the line behind it.** If a source lexes without an error and
the compiler rejects a name in it, then the name is one of its tokens, undeclared or repeated
where it stands. The line of the error is not that of the name but that of the token behind what
was read by then: behind the name if it is undeclared, behind the whole list if it is repeated. -/
theorem rejected_names_are_reported_behind {source : Source} {sink : Vm.Sink} {tokens : List Token}
    (hlexes : Lexer.results { lines := source } = tokens.map Except.ok) {offence : Offence}
    {line : Nat} {name : String} {reached : Compiler}
    (hrun : compile (.start { lines := source } sink) = .error (offence.error line name) reached) :
    ∃ front behind rest own, tokens = front ++ .identifier name :: (behind ++ rest) ∧
      reached.Ahead rest ∧ RejectedAt offence name front behind ∧
      (events source)[front.length]? = some (.token (.identifier name) own) ∧
      lineBehind source (front.length + 1 + behind.length) = some line ∧ own ≤ line := by
  have hyields := Lexer.yields_iff_results.2 hlexes
  have hstep : InStep source reached := by
    obtain ⟨first, hfirst, -⟩ := advance_of_yields
      (show (start { lines := source } sink).lexer.Yields tokens from hyields)
    have hstays := staysInStep_class ((start { lines := source } sink).lexer.budget + 2) first
      (inStep_of_start hfirst)
    rw [compile_eq, compileWithin_eq, bind_ok hfirst] at hrun
    rwa [hrun] at hstays
  obtain hblameless | ⟨offence', name', front, behind, herror, hplace, hread⟩ :=
    compile_rejects hrun
  · exact absurd rfl (hblameless offence line name)
  obtain ⟨rfl, rfl, rfl⟩ : offence = offence' ∧ name = name' ∧ line = reached.lexer.lineNumber := by
    cases offence <;> cases offence' <;> cases herror <;> exact ⟨rfl, rfl, rfl⟩
  obtain ⟨rest, hahead⟩ := hstep.exists_ahead hlexes
  -- what the compiler read is a beginning of what the source lexes to
  have htokens : tokens = front ++ .identifier name :: (behind ++ rest) := by
    have hresults := hlexes.symm.trans (Lexer.yields_iff_results.1 (hread rest hahead))
    exact List.map_injective_iff.2 (fun _ _ => Except.ok.inj) hresults
  subst htokens
  obtain ⟨own, hown⟩ := Lexer.event_of_token hlexes
    (show (front ++ .identifier name :: (behind ++ rest))[front.length]? =
      some (.identifier name) by simp)
  have hline : lineBehind source (front.length + 1 + behind.length) =
      some reached.lexer.lineNumber := by
    have hwhole : front ++ .identifier name :: (behind ++ rest) =
        (front ++ .identifier name :: behind) ++ rest := by simp
    rw [hwhole] at hlexes
    have hconsumed := hstep.lineBehind_eq hlexes hahead (by simp)
    rwa [List.length_append, List.length_cons, Nat.add_comm behind.length, ← Nat.add_assoc]
      at hconsumed
  exact ⟨front, behind, rest, own, rfl, hahead, hplace, hown, hline,
    le_of_lineBehind hown (by omega) hline⟩

/-- A line ends behind the name that is assigned to. -/
def brokenUse : Source :=
  [.text "class A \x7b function void main() \x7b let x".toList,
    .text "= 1; return; \x7d \x7d".toList]

def brokenUseTokens : List Token :=
  [.keyword .classKw, .identifier "A", .symbol '{', .keyword .functionKw, .keyword .voidKw,
    .identifier "main", .symbol '(', .symbol ')', .symbol '{', .keyword .letKw, .identifier "x",
    .symbol '=', .integer 1, .symbol ';', .keyword .returnKw, .symbol ';', .symbol '}', .symbol '}']

/-- The source lexes without an error, so the compiler alone can complain. -/
theorem lexes_brokenUse :
    Lexer.results { lines := brokenUse } = brokenUseTokens.map Except.ok := by
  rw [Lexer.results_eq_pending (Lexer.aligned_start _)]
  rfl

/-- The name stands on the first line, and the error says the second. -/
theorem raised_brokenUse : raised (compile (.start { lines := brokenUse } {})) =
    some (Offence.undeclared.error 2 "x") := by
  decide +kernel

/-- A list of fields has a line for each name and one for the semicolon. -/
def brokenList : Source :=
  [.text "class A \x7b field int x,".toList, .text "x".toList, .text "; \x7d".toList]

def brokenListTokens : List Token :=
  [.keyword .classKw, .identifier "A", .symbol '{', .keyword .fieldKw, .keyword .intKw,
    .identifier "x", .symbol ',', .identifier "x", .symbol ';', .symbol '}']

/-- The source lexes without an error. -/
theorem lexes_brokenList :
    Lexer.results { lines := brokenList } = brokenListTokens.map Except.ok := by
  rw [Lexer.results_eq_pending (Lexer.aligned_start _)]
  rfl

/-- The name stands on the second line for the second time, and the error says the third. -/
theorem raised_brokenList : raised (compile (.start { lines := brokenList } {})) =
    some (Offence.repeated.error 3 "x") := by
  decide +kernel

/-- For both sources the line of the error is the one that the general statement gives. -/
theorem rejected_names_are_reported_behind_broken_lines :
    (∃ reached, compile (.start { lines := brokenUse } {}) =
        .error (Offence.undeclared.error 2 "x") reached ∧
      ∃ front behind rest own,
        brokenUseTokens = front ++ .identifier "x" :: (behind ++ rest) ∧
        reached.Ahead rest ∧ RejectedAt .undeclared "x" front behind ∧
        (events brokenUse)[front.length]? = some (.token (.identifier "x") own) ∧
        lineBehind brokenUse (front.length + 1 + behind.length) = some 2 ∧ own ≤ 2) ∧
    ∃ reached, compile (.start { lines := brokenList } {}) =
        .error (Offence.repeated.error 3 "x") reached ∧
      ∃ front behind rest own,
        brokenListTokens = front ++ .identifier "x" :: (behind ++ rest) ∧
        reached.Ahead rest ∧ RejectedAt .repeated "x" front behind ∧
        (events brokenList)[front.length]? = some (.token (.identifier "x") own) ∧
        lineBehind brokenList (front.length + 1 + behind.length) = some 3 ∧ own ≤ 3 :=
  ⟨⟨_, eq_error_of_raised raised_brokenUse,
      rejected_names_are_reported_behind lexes_brokenUse (eq_error_of_raised raised_brokenUse)⟩,
    _, eq_error_of_raised raised_brokenList,
    rejected_names_are_reported_behind lexes_brokenList (eq_error_of_raised raised_brokenList)⟩

/-- **Neither name is where its error says.** The source has the name on other lines only. -/
theorem reported_line_misses_name :
    ((∃ tokens : List Token, Lexer.results { lines := brokenUse } = tokens.map Except.ok) ∧
      (∃ reached, compile (.start { lines := brokenUse } {}) =
        .error (Offence.undeclared.error 2 "x") reached) ∧
      .token (.identifier "x") 1 ∈ events brokenUse ∧
      .token (.identifier "x") 2 ∉ events brokenUse) ∧
    (∃ tokens : List Token, Lexer.results { lines := brokenList } = tokens.map Except.ok) ∧
    (∃ reached, compile (.start { lines := brokenList } {}) =
      .error (Offence.repeated.error 3 "x") reached) ∧
    .token (.identifier "x") 2 ∈ events brokenList ∧
    .token (.identifier "x") 3 ∉ events brokenList := by
  simp only [← mem_filterMap_token?_iff]
  refine ⟨⟨⟨_, lexes_brokenUse⟩, ⟨_, eq_error_of_raised raised_brokenUse⟩, ?_, ?_⟩,
    ⟨_, lexes_brokenList⟩, ⟨_, eq_error_of_raised raised_brokenList⟩, ?_, ?_⟩
  all_goals decide +kernel

end Compiler

end Jack
