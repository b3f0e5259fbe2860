/-
Everything that a lexer has to say, pulled to the end.

Every pull that yields a token or an error either reads a line or shortens the
queue (`next_behind`), so pulling comes to an end. `Lexer.drain` collects the
tokens and the errors on the way, each with the line the lexer stands at then.
-/
import Jack.Lexer.Basic

set_option autoImplicit false

namespace Jack.Lexer

/-- A token or an error, with the line the lexer stands at after it. -/
structure Item where
  result : Except Error Token
  line : Nat

/-! ## Pulling makes progress -/

/-- A lexer has less before it than another one: fewer lines, or as many lines
and a shorter queue. -/
def Behind (later earlier : Lexer) : Prop :=
  Prod.Lex (· < ·) (· < ·) (later.lines.length, later.queue.length)
    (earlier.lines.length, earlier.queue.length)

theorem Behind.of_lines {later earlier : Lexer}
    (hfewer : later.lines.length < earlier.lines.length) : Behind later earlier :=
  Prod.Lex.left _ _ hfewer

theorem Behind.of_queue {later earlier : Lexer} (hsame : later.lines = earlier.lines)
    (hshorter : later.queue.length < earlier.queue.length) : Behind later earlier := by
  unfold Behind
  rw [hsame]
  exact Prod.Lex.right _ hshorter

theorem Behind.trans {a b c : Lexer} (hab : Behind a b) (hbc : Behind b c) : Behind a c := by
  unfold Behind at *
  rw [Prod.lex_def] at *
  omega

/-- The state a pull ends in. -/
def after {α : Type} : EStateM.Result Error Lexer α → Lexer
  | .ok _ lexer => lexer
  | .error _ lexer => lexer

/-- Reading a line leaves the lines behind it. -/
theorem after_readLine_lines (lexer : Lexer) (line : Line) (rest : Source) :
    (after (lexer.readLine line rest)).lines = rest := by
  unfold readLine
  cases line with
  | unreadable cause => rfl
  | text characters =>
    dsimp only
    split <;> rfl

/-- Filling either leaves the lexer as it is or reads a line. -/
theorem fill_behind {lines : Source} {lexer : Lexer} (hstart : lexer.lines = lines) :
    (∃ more, fill lines lexer = .ok more lexer) ∨ Behind (after (fill lines lexer)) lexer := by
  induction lines generalizing lexer with
  | nil => exact .inl ⟨_, rfl⟩
  | cons line rest ih =>
    rw [fill]
    split
    · right
      have hleft := after_readLine_lines lexer line rest
      cases hread : lexer.readLine line rest with
      | error error reached =>
        rw [hread] at hleft
        exact .of_lines (by simp_all [after])
      | ok _ reached =>
        rw [hread] at hleft
        have hfirst : Behind reached lexer := .of_lines (by simp_all [after])
        rcases @ih reached hleft with ⟨more, hsame⟩ | hfurther
        · simp only [hsame]
          exact hfirst
        · exact hfurther.trans hfirst
    · exact .inl ⟨_, rfl⟩

/-- Filling says that there is more exactly when the queue holds a lexeme. -/
theorem queue_of_fill {lines : Source} {lexer reached : Lexer}
    (hfilled : fill lines lexer = .ok true reached) : reached.queue ≠ [] := by
  induction lines generalizing lexer with
  | nil =>
    simp only [fill, EStateM.Result.ok.injEq] at hfilled
    obtain ⟨hwaiting, rfl⟩ := hfilled
    simpa using hwaiting
  | cons line rest ih =>
    rw [fill] at hfilled
    split at hfilled
    · split at hfilled
      · exact ih hfilled
      · cases hfilled
    · simp_all

/-- Taking a lexeme from a queue that holds one shortens the queue. -/
theorem take_behind {lexer : Lexer} (hwaiting : lexer.queue ≠ []) :
    Behind (after (take lexer)) lexer := by
  unfold take
  split
  · contradiction
  · next lexeme queue hqueued =>
    split <;> exact .of_queue rfl (by simp [after, hqueued])

/-- A pull that does not report the end leaves less before the lexer. -/
theorem next_behind (lexer : Lexer) :
    (∃ reached, next lexer = .ok none reached) ∨ Behind (after (next lexer)) lexer := by
  have hfilling := @fill_behind lexer.lines lexer rfl
  simp only [next, hasNext, bind, EStateM.bind]
  cases hfilled : fill lexer.lines lexer with
  | error error reached =>
    rw [hfilled] at hfilling
    rcases hfilling with ⟨_, himpossible⟩ | hbehind
    · cases himpossible
    · exact .inr hbehind
  | ok more reached =>
    rw [hfilled] at hfilling
    cases more with
    | false => exact .inl ⟨reached, rfl⟩
    | true =>
      have htaken := take_behind (queue_of_fill hfilled)
      have hbehind : Behind (after (take reached)) lexer := by
        rcases hfilling with ⟨_, hsame⟩ | hfurther
        · cases hsame
          exact htaken
        · exact htaken.trans hfurther
      right
      simp only [if_true, EStateM.bind]
      cases htook : take reached <;> rw [htook] at hbehind <;> exact hbehind

/-! ## Pulling to the end -/

/-- Pulls to the end and collects what comes, errors included. -/
def drainFrom (items : Array Item) (lexer : Lexer) : Array Item × Lexer :=
  match _hpulled : next lexer with
  | .ok none reached => (items, reached)
  | .ok (some token) reached => drainFrom (items.push ⟨.ok token, reached.lineNumber⟩) reached
  | .error error reached => drainFrom (items.push ⟨.error error, reached.lineNumber⟩) reached
termination_by (lexer.lines.length, lexer.queue.length)
decreasing_by
  all_goals
    rcases next_behind lexer with ⟨_, hended⟩ | hbehind
    · simp_all
    · rw [_hpulled] at hbehind
      exact hbehind

/-- Everything a lexer still has to say, and the lexer at its end. -/
def drain (lexer : Lexer) : Array Item × Lexer := drainFrom #[] lexer

end Jack.Lexer
