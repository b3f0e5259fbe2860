/-
Invariants of a lexer, and what draining it tells.

A lexer changes in two ways: it reads a line, which it does only when nothing waits in its queue,
and it takes the first lexeme of the queue. What both keep holds behind every sequence of calls
and at the end of draining (`Lexer.Invariant`), so an invariant is proved for these two and for
nothing else.

Draining gives items, in which the line of an error is that of the token before it. As events
(`Lexer.told`) they are exactly what was pending (`told_eq_pending`).
-/
import Jack.Proofs.TextLines

set_option autoImplicit false

namespace Jack

/-- A lexeme that is no token is reported as it is written, in one of two ways. -/
theorem Lexeme.error_of_classify {lexeme : Lexeme} {error : Error}
    (hclassify : lexeme.classify = .error error) :
    error = .invalidToken lexeme.line (String.ofList lexeme.text) ∨
      error = .integerOutOfRange lexeme.line (String.ofList lexeme.text) := by
  obtain ⟨line, text⟩ := lexeme
  cases text with
  | nil =>
    cases hclassify
    exact .inl rfl
  | cons first rest =>
    unfold classify at hclassify
    dsimp only at hclassify
    repeat' split at hclassify
    all_goals first | cases hclassify; exact .inl rfl | cases hclassify; exact .inr rfl | cases hclassify

namespace Lexer

/-! ## Pulling, by its two parts -/

section Parts

variable {lexer reached : Lexer}

theorem advance_of_error {error : Error} (hpull : hasNext lexer = .error error reached) :
    advance lexer = .error error reached := by
  simp [advance, bind, EStateM.bind, hpull]

theorem next_of_error {error : Error} (hpull : hasNext lexer = .error error reached) :
    next lexer = .error error reached := by
  simp [next, bind, EStateM.bind, hpull]

theorem advance_of_ok {more : Bool} (hpull : hasNext lexer = .ok more reached) :
    advance lexer = take reached := by
  simp [advance, bind, EStateM.bind, hpull]

theorem next_of_false (hpull : hasNext lexer = .ok false reached) :
    next lexer = .ok none reached := by
  simp [next, bind, EStateM.bind, hpull, pure, EStateM.pure]

theorem next_of_true (hpull : hasNext lexer = .ok true reached) :
    next lexer = EStateM.map some take reached := by
  simp only [next, bind, EStateM.bind, hpull, if_true, pure, EStateM.pure, EStateM.map]

/-- If looking ahead meets an error, a call delivers no other one. -/
theorem of_delivered_of_error {error met : Error} {call : Call}
    (hpull : hasNext lexer = .error error reached)
    (hmem : .error met ∈ (lexer.reply call).delivered) :
    met = error ∧ lexer.called call = reached := by
  cases call with
  | hasNext =>
    rw [reply, hpull] at hmem
    rw [called, hpull]
    exact ⟨Except.error.inj (List.mem_singleton.1 hmem), rfl⟩
  | advance =>
    rw [reply, advance_of_error hpull, outcome, Reply.delivered] at hmem
    rw [called, advance_of_error hpull]
    split at hmem
    · cases hmem
    · exact ⟨Except.error.inj (List.mem_singleton.1 hmem), rfl⟩
  | next =>
    rw [reply, next_of_error hpull] at hmem
    rw [called, next_of_error hpull]
    exact ⟨Except.error.inj (List.mem_singleton.1 hmem), rfl⟩
  | current => cases hmem
  | line => cases hmem

/-- If looking ahead meets none, an error that a call delivers is met by taking a lexeme. -/
theorem take_of_delivered {met : Error} {more : Bool} {call : Call}
    (hpull : hasNext lexer = .ok more reached)
    (hmem : .error met ∈ (lexer.reply call).delivered) :
    ∃ state, take reached = .error met state := by
  -- only the two calls that take a lexeme can deliver an error, and both fail just when the taking
  -- does
  cases call with
  | hasNext =>
    rw [reply, hpull] at hmem
    cases hmem
  | advance =>
    rw [reply, advance_of_ok hpull] at hmem
    cases htake : take reached with
    | ok token state =>
      rw [htake] at hmem
      cases List.mem_singleton.1 hmem
    | error error state =>
      rw [htake, outcome, Reply.delivered] at hmem
      split at hmem
      · cases hmem
      · cases List.mem_singleton.1 hmem
        exact ⟨state, rfl⟩
  | next =>
    cases more with
    | false =>
      rw [reply, next_of_false hpull] at hmem
      cases hmem
    | true =>
      rw [reply, next_of_true hpull, EStateM.map] at hmem
      cases htake : take reached with
      | ok token state =>
        rw [htake] at hmem
        cases List.mem_singleton.1 hmem
      | error error state =>
        rw [htake] at hmem
        cases List.mem_singleton.1 hmem
        exact ⟨state, rfl⟩
  | current => cases hmem
  | line => cases hmem

/-- The errors of taking are those of lexemes, and the end of the input. -/
theorem take_ne_fault (lexer : Lexer) (fault : Lexeme.Fault) (number : Nat) (reached : Lexer) :
    take lexer ≠ .error (fault.error number) reached := by
  unfold take
  split
  · cases fault <;> rintro ⟨⟩
  · split
    · rintro ⟨⟩
    · next error hclassify =>
      rcases Lexeme.error_of_classify hclassify with rfl | rfl <;> cases fault <;> rintro ⟨⟩

end Parts

/-! ## Invariants -/

/-- A property of lexers that reading a line and taking a lexeme keep. -/
structure Invariant (holds : Lexer → Prop) : Prop where
  reading : ∀ {lexer : Lexer} {line : Line} {rest : Source}, holds lexer →
    lexer.lines = line :: rest → lexer.queue = [] → holds (after (lexer.readLine line rest))
  taking : ∀ {lexer : Lexer}, holds lexer → holds (after (take lexer))

namespace Invariant

variable {holds : Lexer → Prop} {lexer reached : Lexer} {lines : Source}

theorem fill (h : Invariant holds) (hlines : lexer.lines = lines) (hholds : holds lexer) :
    holds (after (Lexer.fill lines lexer)) := by
  induction lines generalizing lexer with
  | nil => exact hholds
  | cons line rest ih =>
    rw [Lexer.fill]
    split
    · next hempty =>
      have hread := h.reading hholds hlines (List.isEmpty_iff.1 hempty)
      have hleft := after_readLine_lines lexer line rest
      cases hresult : lexer.readLine line rest with
      | error error reached =>
        rw [hresult] at hread
        exact hread
      | ok _ reached =>
        rw [hresult] at hread hleft
        exact ih hleft hread
    · exact hholds

/-- An error of filling is that of a line, read in a state that the invariant holds of. -/
theorem of_fill_error (h : Invariant holds) {error : Error} (hlines : lexer.lines = lines)
    (hholds : holds lexer) (hfill : Lexer.fill lines lexer = .error error reached) :
    ∃ middle line rest, holds middle ∧ middle.lines = line :: rest ∧ middle.queue = [] ∧
      middle.readLine line rest = .error error reached := by
  induction lines generalizing lexer with
  | nil => cases hfill
  | cons line rest ih =>
    rw [Lexer.fill] at hfill
    split at hfill
    · next hempty =>
      have hqueue := List.isEmpty_iff.1 hempty
      have hread := h.reading hholds hlines hqueue
      have hleft := after_readLine_lines lexer line rest
      cases hresult : lexer.readLine line rest with
      | error met faulty =>
        rw [hresult] at hfill
        cases hfill
        exact ⟨lexer, line, rest, hholds, hlines, hqueue, hresult⟩
      | ok _ middle =>
        rw [hresult] at hfill hread hleft
        exact ih hleft hread hfill
    · cases hfill

/-- Each call reads lines and then takes a lexeme at most. -/
theorem called (h : Invariant holds) (hholds : holds lexer) (call : Call) :
    holds (lexer.called call) := by
  have hfilled : holds (after (hasNext lexer)) := h.fill rfl hholds
  -- a call first fills the queue, and then takes from it or leaves it
  cases hpull : hasNext lexer with
  | error error reached =>
    rw [hpull] at hfilled
    cases call with
    | hasNext => rwa [Lexer.called, hpull]
    | advance => rwa [Lexer.called, advance_of_error hpull]
    | next => rwa [Lexer.called, next_of_error hpull]
    | current => exact hholds
    | line => exact hholds
  | ok more reached =>
    rw [hpull] at hfilled
    have htaken : holds (after (take reached)) := h.taking hfilled
    cases call with
    | hasNext => rwa [Lexer.called, hpull]
    | advance => rwa [Lexer.called, advance_of_ok hpull]
    | next =>
      cases more with
      | false => rwa [Lexer.called, next_of_false hpull]
      | true =>
        rw [Lexer.called, next_of_true hpull, EStateM.map]
        cases htake : take reached <;> rwa [htake] at htaken
    | current => exact hholds
    | line => exact hholds

/-- An error of a line that a call delivers was met by reading it, in a state that the invariant
holds of. -/
theorem of_fault (h : Invariant holds) (hholds : holds lexer) {call : Call} {fault : Lexeme.Fault}
    {number : Nat} (hfault : .error (fault.error number) ∈ (lexer.reply call).delivered) :
    ∃ middle line rest, holds middle ∧ middle.lines = line :: rest ∧ middle.queue = [] ∧
      middle.readLine line rest = .error (fault.error number) (lexer.called call) := by
  cases hpull : hasNext lexer with
  | error error reached =>
    obtain ⟨herror, hcalled⟩ := of_delivered_of_error hpull hfault
    rw [herror, hcalled]
    exact h.of_fill_error rfl hholds hpull
  | ok more reached =>
    obtain ⟨state, htake⟩ := take_of_delivered hpull hfault
    exact absurd htake (take_ne_fault reached fault number state)

theorem calledAll (h : Invariant holds) (hholds : holds lexer) (calls : List Call) :
    holds (lexer.calledAll calls) := by
  induction calls generalizing lexer with
  | nil => exact hholds
  | cons call calls ih => exact ih (h.called hholds call)

/-- Draining is asking for the next token again and again. -/
theorem drain (h : Invariant holds) (hholds : holds lexer) : holds (Lexer.drain lexer).2 := by
  suffices hall : ∀ items, holds (drainFrom items lexer).2 from hall #[]
  intro items
  have hnext : holds (after (next lexer)) := h.called hholds .next
  fun_induction drainFrom items lexer with
  | case1 items lexer reached hpull =>
    rw [hpull] at hnext
    exact hnext
  | case2 items lexer token reached hpull ih =>
    rw [hpull] at hnext
    exact ih hnext (h.called hnext .next)
  | case3 items lexer error reached hpull ih =>
    rw [hpull] at hnext
    exact ih hnext (h.called hnext .next)

end Invariant

/-- Draining stops when everything was read. -/
theorem spent_drain (lexer : Lexer) : (drain lexer).2.Spent := by
  suffices hspent : ∀ items, (drainFrom items lexer).2.Spent from hspent #[]
  intro items
  fun_induction drainFrom items lexer with
  | case1 items lexer reached hpull => exact spent_of_next hpull
  | case2 items lexer token reached hpull ih => exact ih
  | case3 items lexer error reached hpull ih => exact ih

/-! ## What draining tells -/

/-- An item as an event: a token has a line, and an error names its own. -/
def Item.event (item : Item) : Event :=
  match item.result with
  | .ok token => .token token item.line
  | .error error => .error error

/-- The events that draining a lexer gives. -/
def told (lexer : Lexer) : List Event := (drain lexer).1.toList.map Item.event

/-- A pull meets the error that is pending first. -/
theorem next_of_pending_error {lexer : Lexer} (haligned : lexer.Aligned) {error : Error}
    {rest : List Event} (hpending : lexer.pending = .error error :: rest) :
    ∃ reached, next lexer = .error error reached ∧ reached.Aligned ∧ reached.pending = rest := by
  have hanswers := answers_next haligned
  rw [hpending, List.take_succ_cons, List.take_zero] at hanswers
  obtain ⟨htells, hreached, hdelivered, -⟩ := hanswers
  have hrest := htells.pending
  rw [hpending, List.singleton_append] at hrest
  rw [reply] at hdelivered
  rw [called] at hreached hrest
  cases hnext : next lexer with
  | error met reached =>
    rw [hnext] at hdelivered hreached hrest
    cases hdelivered
    exact ⟨reached, rfl, hreached, (List.cons.inj hrest).2.symm⟩
  | ok pulled reached =>
    rw [hnext] at hdelivered
    cases pulled <;> cases hdelivered

theorem told_of_end {lexer reached : Lexer} (hpull : next lexer = .ok none reached) :
    told lexer = [] := by
  rw [told, drain, drainFrom]
  split <;> simp_all

theorem told_of_token {lexer reached : Lexer} {token : Token}
    (hpull : next lexer = .ok (some token) reached) :
    told lexer = .token token reached.lineNumber :: told reached := by
  rw [told, drain, drainFrom]
  split <;> simp_all [told, drain, drainFrom_toList #[_], Item.event]

theorem told_of_error {lexer reached : Lexer} {error : Error}
    (hpull : next lexer = .error error reached) : told lexer = .error error :: told reached := by
  rw [told, drain, drainFrom]
  split <;> simp_all [told, drain, drainFrom_toList #[_], Item.event]

/-- **Draining tells what is pending.** -/
theorem told_eq_pending {lexer : Lexer} (haligned : lexer.Aligned) :
    told lexer = lexer.pending := by
  induction hpending : lexer.pending generalizing lexer with
  | nil =>
    obtain ⟨reached, hnext, -⟩ := next_of_pending_nil haligned hpending
    exact told_of_end hnext
  | cons event rest ih =>
    cases event with
    | token token line =>
      obtain ⟨reached, hnext, hline, hreached, hrest⟩ := next_of_pending haligned hpending
      rw [told_of_token hnext, hline, ih hreached hrest]
    | error error =>
      obtain ⟨reached, hnext, hreached, hrest⟩ := next_of_pending_error haligned hpending
      rw [told_of_error hnext, ih hreached hrest]

theorem told_ofBytes (bytes : List UInt8) : told (ofBytes bytes) = events (Source.ofBytes bytes) :=
  told_eq_pending (aligned_ofBytes bytes)

end Lexer

end Jack
