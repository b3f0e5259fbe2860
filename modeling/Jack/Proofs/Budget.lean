/-
The budget never decides anything.

A run computes a bound on what is left to read before it begins, and its rules carry the bound
along so that they come to an end. The bound depends on how a source is laid out: blanks and
comments make it larger. Here it is shown that it has no influence: two budgets that cover what
is `remaining` give the same run. The reason is that everything that uses up a part of the
budget, a step into a term or block or another round of a loop, has moved over a token before,
and moving over a token leaves less (`Drops`).

`Agree n action other` compares two actions from the states in which at most `n` tokens remain.
-/
import Jack.Proofs.Actions
import Jack.Proofs.EveryRun

set_option autoImplicit false

namespace Jack.Compiler

open Vm (Command)

variable {α β : Type} {compiler reached : Compiler}

/-! ## What remains -/

/-- A bound on the number of tokens that are left, with the current one. -/
def remaining (compiler : Compiler) : Nat :=
  compiler.lexer.budget + if compiler.current.isSome then 1 else 0

/-- Where there is a current token, something remains. So in a state in which nothing remains there
is none. -/
theorem remaining_pos (h : compiler.current.isSome) : 0 < compiler.remaining := by
  rw [remaining, if_pos h]
  exact Nat.succ_pos _

/-- Where nothing remains, no token is the current one. -/
theorem current_of_remaining (h : compiler.remaining ≤ 0) : compiler.current = none := by
  cases hcurrent : compiler.current with
  | none => rfl
  | some token =>
    have hpos := @remaining_pos compiler (by rw [hcurrent]; rfl)
    omega

/-- What remains behind a pull does not exceed the budget of the lexer. -/
theorem remaining_advance (hrun : advance compiler = .ok () reached) :
    reached.remaining ≤ compiler.lexer.budget := by
  unfold advance at hrun
  split at hrun
  · next current lexer hnext =>
    cases hrun
    cases current with
    | some token => exact Lexer.budget_next hnext
    | none => exact Lexer.budget_next_end hnext
  · cases hrun

/-- An action that does not put anything back. -/
def Falls (action : CompileM α) : Prop :=
  ∀ compiler value reached, action compiler = .ok value reached →
    reached.remaining ≤ compiler.remaining

/-- An action that moves over the current token. -/
def Drops (action : CompileM α) : Prop :=
  ∀ compiler value reached, compiler.current.isSome → action compiler = .ok value reached →
    reached.remaining < compiler.remaining

/-- Every step but `advance` leaves the lexer and the current token as they are. -/
theorem keptBySteps_falls : KeptBySteps fun compiler error reached =>
    error = none → reached.remaining ≤ compiler.remaining where
  refl := fun _ _ => Nat.le_refl _
  trans := fun h h' herror => Nat.le_trans (h' herror) (h rfl)
  complain := fun _ _ => nofun
  advance := by
    intro compiler herror
    cases hrun : advance compiler with
    -- a pull that fails ends the run, and nothing is said of that
    | error error reached =>
      rw [hrun] at herror
      cases herror
    | ok _ reached => exact Nat.le_trans (remaining_advance hrun) (Nat.le_add_right _ _)
  define := by
    intro name type kind compiler _
    unfold define
    split <;> exact Nat.le_refl _
  startSubroutine := fun _ _ => Nat.le_refl _
  nameSubroutine := fun _ _ _ => Nat.le_refl _
  nameClass := fun _ _ _ => Nat.le_refl _
  note := fun _ _ _ => Nat.le_refl _
  emit := by
    intro command _ compiler _
    obtain ⟨writer, deferred, hafter, -⟩ := after_emit compiler command
    rw [hafter]
    exact Nat.le_refl _

/-- What holds of the ends of all runs holds of those that succeed. -/
theorem falls_of_ends {action : CompileM α} (h : Ends (fun compiler error reached =>
    error = none → reached.remaining ≤ compiler.remaining) action) : Falls action := by
  intro compiler value reached hrun
  have hends := h compiler
  rw [hrun] at hends
  exact hends rfl

/-- The special steps of statements put nothing back, deferred actions included. -/
theorem Special.ends_falls {action : CompileM α} (h : Special α action) :
    Ends (fun compiler error reached => error = none → reached.remaining ≤ compiler.remaining)
      action := by
  cases h with
  | freshLabel => exact fun _ _ => Nat.le_refl _
  | emit command =>
    intro compiler _
    obtain ⟨writer, deferred, hafter, -⟩ := after_emit compiler command
    rw [hafter]
    exact Nat.le_refl _
  | defer haction =>
    intro compiler
    rw [after_defer, raised_defer]
    exact haction.ends keptBySteps_falls (fun _ _ hfalse => hfalse.elim) compiler.opened

/-- No rule puts anything back. -/
theorem Composed.falls {action : CompileM α} (h : Composed Special action) : Falls action :=
  falls_of_ends (h.ends keptBySteps_falls fun _ _ hspecial => hspecial.ends_falls)

/-- Moving over a token leaves less: the token is gone, and the one behind it was counted
already. -/
theorem drops_advance : Drops advance := by
  intro compiler value reached hcurrent hrun
  have hleft := remaining_advance hrun
  unfold remaining at hleft ⊢
  rw [if_pos hcurrent]
  omega

/-- An action that moves on without a look at the current token. -/
def Blind (action : CompileM α) : Prop :=
  ∀ compiler value reached, action compiler = .ok value reached →
    action { compiler with current := none } = .ok value reached

/-- Moving on does not look at what it moves over. -/
theorem blind_advance (next : Unit → CompileM β) : Blind (advance >>= next) := by
  intro compiler value reached hrun
  obtain ⟨_, middle, hadvance, hnext⟩ := bind_ok_iff.1 hrun
  have hblind : advance { compiler with current := none } = .ok () middle := by
    unfold advance at hadvance ⊢
    split at hadvance
    · next hpull => rw [← hadvance, hpull]
    · cases hadvance
  rw [bind_ok hblind, hnext]

/-- Taking a number does not look at the current token, either. -/
theorem blind_freshLabel {next : String → CompileM β} (h : ∀ number, Blind (next number)) :
    Blind (freshLabel >>= next) := by
  intro compiler value reached hrun
  exact h _ { compiler with labels := compiler.labels + 1 } value reached hrun

/-- What puts nothing back and does not look at the current token moves over it. -/
theorem Falls.drops {action : CompileM α} (h : Falls action) (hblind : Blind action) :
    Drops action := by
  intro compiler value reached hcurrent hrun
  have hleft := h _ value reached (hblind compiler value reached hrun)
  unfold remaining at hleft ⊢
  rw [if_pos hcurrent]
  exact Nat.lt_succ_of_le hleft

/-- Moving over a given token leaves less, for it was the current one. -/
theorem remaining_expect {token : Token} (hrun : expect token compiler = .ok () reached) :
    reached.remaining < compiler.remaining := by
  rw [expect, look_bind] at hrun
  split at hrun
  · next hcurrent =>
    refine drops_advance compiler () reached ?_ hrun
    rw [eq_of_beq hcurrent]
    rfl
  · exact absurd hrun unexpected_ne_ok

/-! ## Actions that agree -/

/-- Two actions do the same from every state in which at most `n` tokens remain. -/
def Agree (n : Nat) (action other : CompileM α) : Prop :=
  ∀ compiler : Compiler, compiler.remaining ≤ n → action compiler = other compiler

/-- The same for states that have a current token. -/
def AgreeHere (n : Nat) (action other : CompileM α) : Prop :=
  ∀ compiler : Compiler, compiler.current.isSome → compiler.remaining ≤ n →
    action compiler = other compiler

namespace Agree

variable {n m : Nat} {action other : CompileM α} {next following : α → CompileM β}

theorem refl (n : Nat) (action : CompileM α) : Agree n action action := fun _ _ => rfl

theorem mono (h : Agree n action other) (hle : m ≤ n) : Agree m action other :=
  fun compiler hremaining => h compiler (Nat.le_trans hremaining hle)

theorem here (h : Agree n action other) : AgreeHere n action other :=
  fun compiler _ hremaining => h compiler hremaining

/-- A sequence agrees if its halves do, since the first half puts nothing back. -/
theorem bind (h : Agree n action other) (hcomposed : Composed Special action)
    (hnext : ∀ value, Agree n (next value) (following value)) :
    Agree n (action >>= next) (other >>= following) := by
  intro compiler hremaining
  have hfirst := h compiler hremaining
  cases hrun : action compiler with
  | ok value reached =>
    rw [bind_ok hrun, bind_ok (hfirst.symm.trans hrun)]
    have hleft := hcomposed.falls compiler value reached hrun
    exact hnext value reached (Nat.le_trans hleft hremaining)
  | error error reached => rw [bind_error hrun, bind_error (hfirst.symm.trans hrun)]

/-- The first half may be one action. -/
theorem behind (hcomposed : Composed Special action)
    (hnext : ∀ value, Agree n (next value) (following value)) :
    Agree n (action >>= next) (action >>= following) :=
  (refl n action).bind hcomposed hnext

/-- The second half may be one action. -/
theorem before (h : Agree n action other) (hcomposed : Composed Special action)
    (next : α → CompileM β) : Agree n (action >>= next) (other >>= next) :=
  h.bind hcomposed fun value => refl n (next value)

/-- Behind a given token less remains. -/
theorem behind_expect {token : Token} {next following : Unit → CompileM β}
    (hnext : ∀ value, Agree n (next value) (following value)) :
    Agree (n + 1) (expect token >>= next) (expect token >>= following) := by
  intro compiler hremaining
  cases hrun : expect token compiler with
  | ok value reached =>
    rw [bind_ok hrun, bind_ok hrun]
    have hless := remaining_expect hrun
    exact hnext value reached (by omega)
  | error error reached => rw [bind_error hrun, bind_error hrun]

/-- An agreeing action can be deferred: nothing is read by opening a list. -/
theorem defer {action other : CompileM Unit} (h : Agree n action other) :
    Agree n (defer action) (defer other) := by
  intro compiler hremaining
  unfold Compiler.defer
  rw [h { compiler with deferred := [] :: compiler.deferred } hremaining]

/-- Behind an opening bracket there is one token less, so a rule in brackets may go one level
deeper. -/
theorem between {rule others : CompileM α} (h : Agree n rule others)
    (hcomposed : Composed Special rule) (opening closing : Char) :
    Agree (n + 1) (between opening rule closing) (between opening others closing) :=
  behind_expect fun _ => h.before hcomposed _

/-- The same with something behind the closing bracket. -/
theorem between_bind {rule others : CompileM α} (h : Agree n rule others)
    (hcomposed : Composed Special rule) (opening closing : Char)
    (hnext : ∀ value, Agree n (next value) (following value)) :
    Agree n (Compiler.between opening rule closing >>= next)
      (Compiler.between opening others closing >>= following) := by
  apply bind _ (composed_between hcomposed opening closing) hnext
  exact (h.between hcomposed opening closing).mono (Nat.le_succ n)

/-- A look at the state is the same look on both sides. -/
theorem look {next following : Compiler → CompileM β}
    (hnext : ∀ compiler, Agree n (next compiler) (following compiler)) :
    Agree n (get >>= next) (get >>= following) :=
  fun compiler hremaining => hnext compiler compiler hremaining

end Agree

/-- Where nothing remains there is no current token, so there is nothing to compare. -/
theorem agreeHere_zero (action other : CompileM α) : AgreeHere 0 action other := by
  intro compiler hcurrent hremaining
  have hpos := remaining_pos hcurrent
  omega

/-- Behind the current token less remains. -/
theorem agreeHere_advance {n : Nat} {next following : Unit → CompileM β}
    (hnext : ∀ value, Agree n (next value) (following value)) :
    AgreeHere (n + 1) (advance >>= next) (advance >>= following) := by
  intro compiler hcurrent hremaining
  cases hrun : advance compiler with
  | ok value reached =>
    rw [bind_ok hrun, bind_ok hrun]
    have hless := drops_advance compiler value reached hcurrent hrun
    exact hnext value reached (by omega)
  | error error reached => rw [bind_error hrun, bind_error hrun]

/-- Taking a number leaves the token and what remains. -/
theorem agreeHere_freshLabel {n : Nat} {next following : String → CompileM β}
    (hnext : ∀ number, AgreeHere n (next number) (following number)) :
    AgreeHere n (freshLabel >>= next) (freshLabel >>= following) := by
  intro compiler hcurrent hremaining
  exact hnext _ { compiler with labels := compiler.labels + 1 } hcurrent hremaining

/-- Looking at the state is no step. -/
theorem agree_look {n : Nat} {next following : Compiler → CompileM β}
    (hend : ∀ compiler : Compiler, compiler.current = none → next compiler = following compiler)
    (hnext : ∀ compiler, AgreeHere n (next compiler) (following compiler)) :
    Agree n (get >>= next) (get >>= following) := by
  intro compiler hremaining
  rw [get_bind, get_bind]
  cases hcurrent : compiler.current with
  | none => rw [hend compiler hcurrent]
  | some token => exact hnext compiler compiler (by rw [hcurrent]; rfl) hremaining

/-! ## Loops -/

/-- Repetitions with enough rounds agree. A rule that moves over a token leaves less for the next
round, and that is the induction. -/
theorem Agree.many {n : Nat} {head : Token → Option α} {rule other : α → CompileM Unit}
    (hrule : ∀ found, AgreeHere n (rule found) (other found)) (hdrops : ∀ found, Drops (rule found))
    {budget enough : Nat} (hbudget : n ≤ budget) (henough : n ≤ enough) :
    Agree n (many head rule budget) (many head other enough) := by
  induction n generalizing budget enough with
  | zero =>
    intro compiler hremaining
    have hnone : compiler.current.bind head = none := by rw [current_of_remaining hremaining]; rfl
    rw [many_stop hnone, many_stop hnone]
  | succ n ih =>
    intro compiler hremaining
    obtain ⟨budget, rfl⟩ := Nat.exists_eq_add_one_of_ne_zero (show budget ≠ 0 by omega)
    obtain ⟨enough, rfl⟩ := Nat.exists_eq_add_one_of_ne_zero (show enough ≠ 0 by omega)
    cases hfound : compiler.current.bind head with
    | none => rw [many_stop hfound, many_stop hfound]
    | some found =>
      -- the round moves over the token that asked for it, so that one round less remains
      have hcurrent : compiler.current.isSome := by
        obtain ⟨token, htoken, -⟩ := Option.bind_eq_some_iff.1 hfound
        rw [htoken]
        rfl
      have hsame := hrule found compiler hcurrent hremaining
      rw [Compiler.many, Compiler.many, look_bind, look_bind, hfound]
      dsimp only
      cases hrun : rule found compiler with
      | error error reached => rw [bind_error hrun, bind_error (hsame.symm.trans hrun)]
      | ok value reached =>
        have hless := hdrops found compiler value reached hcurrent hrun
        rw [bind_ok hrun, bind_ok (hsame.symm.trans hrun)]
        apply ih _ (by omega) (by omega) reached (by omega)
        intro found compiler hcurrent hsmall
        exact hrule found compiler hcurrent (by omega)

/-- Lists with enough rounds agree: every further item stands behind a comma. -/
theorem Agree.commaListFrom {n : Nat} {item other : CompileM α} (hitem : Agree n item other)
    (hcomposed : Composed Special item) (found : List α) {budget enough : Nat}
    (hbudget : n ≤ budget) (henough : n ≤ enough) :
    Agree n (commaListFrom item found budget) (commaListFrom other found enough) := by
  induction n generalizing budget enough found with
  | zero =>
    intro compiler hremaining
    -- no token is left, so there is no comma, and both loops stop whatever their budgets are
    have hcomma : compiler.current ≠ some (.symbol ',') := by
      rw [current_of_remaining hremaining]
      nofun
    rw [commaListFrom_stop found hcomma, commaListFrom_stop found hcomma]
  | succ n ih =>
    intro compiler hremaining
    obtain ⟨budget, rfl⟩ := Nat.exists_eq_add_one_of_ne_zero (show budget ≠ 0 by omega)
    obtain ⟨enough, rfl⟩ := Nat.exists_eq_add_one_of_ne_zero (show enough ≠ 0 by omega)
    by_cases hcomma : compiler.current = some (.symbol ',')
    -- behind the comma there is one token less, for which both budgets are still enough
    · have hinner : AgreeHere (n + 1)
          (advance >>= fun _ => item >>= fun value =>
            Compiler.commaListFrom item (value :: found) budget)
          (advance >>= fun _ => other >>= fun value =>
            Compiler.commaListFrom other (value :: found) enough) := by
        apply agreeHere_advance
        intro _
        apply (hitem.mono (Nat.le_succ n)).bind hcomposed
        intro value
        exact ih (hitem.mono (Nat.le_succ n)) _ (by omega) (by omega)
      rw [Compiler.commaListFrom, Compiler.commaListFrom, atSymbol_bind, atSymbol_bind, hcomma,
        if_pos (by simp), if_pos (by simp)]
      exact hinner compiler (by rw [hcomma]; rfl) hremaining
    · rw [commaListFrom_stop found hcomma, commaListFrom_stop found hcomma]

/-- Lists with enough rounds agree, with the item in front of the first comma. -/
theorem Agree.commaList {n : Nat} {item other : CompileM α} (hitem : Agree n item other)
    (hcomposed : Composed Special item) {budget enough : Nat} (hbudget : n ≤ budget)
    (henough : n ≤ enough) :
    Agree n (commaList item budget) (commaList other enough) :=
  hitem.bind hcomposed fun value => hitem.commaListFrom hcomposed [value] hbudget henough

/-! ## Expressions -/

section

variable {n : Nat} {inner other : CompileM Unit} (hcomposed : Composed Special inner)
  (hagree : Agree n inner other) {budget enough : Nat} (hbudget : n ≤ budget)
  (henough : n ≤ enough)

include hcomposed hagree hbudget henough

/-- Chains agree, since every further term stands behind an operator. -/
theorem agree_chain : Agree n (chain inner budget) (chain other enough) := by
  apply hagree.bind hcomposed
  intro _
  refine Agree.many (fun command => ?_) (fun command => ?_) hbudget henough
  · exact (Agree.behind .advance fun _ => hagree.before hcomposed _).here
  · have hround : Composed Special (advance >>= fun _ => inner >>= fun _ => emit command) :=
      .bind .advance fun _ => .bind hcomposed fun _ => .base (.emit command)
    exact hround.falls.drops (blind_advance _)

theorem agree_arguments : Agree n (arguments inner budget) (arguments other enough) := by
  apply Agree.behind (composed_atSymbol ')')
  intro none
  split
  · exact .refl n _
  · apply (hagree.commaList hcomposed hbudget henough).before
    exact composed_commaList hcomposed budget

/-- Calls agree, since all of their arguments stand in brackets. -/
theorem agree_subroutineCall (first : String) :
    Agree n (subroutineCall inner budget first) (subroutineCall other enough first) := by
  have harguments := composed_arguments hcomposed budget
  apply Agree.behind (composed_callee first)
  rintro ⟨callee, receivers⟩
  apply (agree_arguments hcomposed hagree hbudget henough).between_bind harguments '(' ')'
  intro count
  exact .refl n _

/-- A term that begins with a name has moved over the name before it goes any deeper. -/
theorem agreeHere_namedTerm (first : String) :
    AgreeHere (n + 1) (namedTerm inner budget first) (namedTerm other enough first) := by
  apply agreeHere_advance
  intro _
  apply Agree.behind (composed_atSymbol '(')
  intro opened
  apply Agree.behind (composed_atSymbol '.')
  intro dotted
  split
  · exact agree_subroutineCall hcomposed hagree hbudget henough first
  apply Agree.behind (composed_atSymbol '[')
  intro indexed
  split
  · apply Agree.behind (composed_lookup first)
    intro symbol
    apply Agree.behind (composed_push _ _)
    intro _
    exact hagree.between_bind hcomposed '[' ']' fun _ => .refl n _
  · exact .refl n _

end

/-- Without a current token there is no term, whatever the budget. -/
theorem term_end (budget : Nat) (hcurrent : compiler.current = none) :
    term budget compiler = unexpected "term" compiler := by
  cases budget with
  | zero => rfl
  | succ budget =>
    rw [term, look_bind, hcurrent]
    rfl

/-- Terms agree, by induction on what remains: a term inside of another one is behind a token of the
outer one. -/
theorem agree_term {n budget enough : Nat} (hbudget : n ≤ budget) (henough : n ≤ enough) :
    Agree n (term budget) (term enough) := by
  -- a term inside a term stands behind a token of the outer one, so the induction is on the
  -- number of tokens, and both budgets go down with it
  induction n generalizing budget enough with
  | zero =>
    intro compiler hremaining
    have hcurrent := current_of_remaining hremaining
    rw [term_end budget hcurrent, term_end enough hcurrent]
  | succ n ih =>
    obtain ⟨budget, rfl⟩ := Nat.exists_eq_add_one_of_ne_zero (show budget ≠ 0 by omega)
    obtain ⟨enough, rfl⟩ := Nat.exists_eq_add_one_of_ne_zero (show enough ≠ 0 by omega)
    have hbudget : n ≤ budget := Nat.le_of_succ_le_succ hbudget
    have henough : n ≤ enough := Nat.le_of_succ_le_succ henough
    have hinner : Agree n (term budget) (term enough) := ih hbudget henough
    have hcomposed : Composed Special (term budget) := composed_term budget
    have hchain := agree_chain hcomposed hinner hbudget henough
    apply agree_look
    · intro compiler hcurrent
      simp only [hcurrent]
    · intro compiler
      split
      case h_7 => exact (hchain.between (composed_chain hcomposed budget) '(' ')').here
      case h_8 => exact agreeHere_advance fun _ => hinner.before hcomposed _
      case h_9 => exact agreeHere_advance fun _ => hinner.before hcomposed _
      case h_10 =>
        exact agreeHere_namedTerm (composed_chain hcomposed budget) hchain hbudget henough _
      -- the other terms have nothing inside
      all_goals exact (Agree.refl _ _).here

theorem agree_expression {n budget enough : Nat} (hbudget : n ≤ budget) (henough : n ≤ enough) :
    Agree n (expression budget) (expression enough) :=
  agree_chain (composed_term budget) (agree_term hbudget henough) hbudget henough

/-! ## Statements -/

section

variable {n : Nat} {budget enough : Nat} (hbudget : n ≤ budget) (henough : n ≤ enough)

include hbudget henough

theorem agree_assignment : Agree n (assignment budget) (assignment enough) := by
  have hexpression := agree_expression hbudget henough
  have hcomposed : Composed Special (expression budget) := composed_expression budget
  apply Agree.behind .advance
  intro _
  apply Agree.behind composed_name
  intro target
  apply Agree.behind (composed_lookup target)
  intro symbol
  apply Agree.behind (composed_atSymbol '[')
  intro indexed
  split
  · have hindex := (hexpression.between hcomposed '[' ']').mono (Nat.le_succ n)
    have hdefer : Composed Special (defer (between '[' (expression budget) ']')) :=
      .base (.defer (composed_between (composed_expression budget) '[' ']'))
    apply hindex.defer.bind hdefer
    intro index
    apply Agree.behind (composed_expectSymbol '=')
    intro _
    exact hexpression.before hcomposed _
  · apply Agree.behind (composed_expectSymbol '=')
    intro _
    exact hexpression.before hcomposed _

theorem agree_invocation : Agree n (invocation budget) (invocation enough) := by
  have hcomposed : Composed Special (expression budget) := composed_expression budget
  have hexpression := agree_expression hbudget henough
  apply Agree.behind .advance
  intro _
  apply Agree.behind composed_name
  intro first
  apply (agree_subroutineCall hcomposed hexpression hbudget henough first).before
  exact composed_subroutineCall hcomposed budget first

theorem agree_exit : Agree n (exit budget) (exit enough) := by
  have hcomposed : Composed Special (expression budget) := composed_expression budget
  apply Agree.behind .advance
  intro _
  apply Agree.behind (composed_atSymbol ';')
  intro empty
  dsimp only
  split
  · exact .refl n _
  · exact (agree_expression hbudget henough).before hcomposed _

variable {block other : CompileM Unit} (hcomposed : Composed Special block)
  (hblock : Agree n block other)

include hcomposed hblock

/-- A block stands behind the keyword of its statement. -/
theorem agreeHere_loop : AgreeHere (n + 1) (loop block budget) (loop other enough) := by
  apply agreeHere_freshLabel
  intro number
  apply agreeHere_advance
  intro _
  apply Agree.behind (.base (.emit _))
  intro _
  apply (agree_expression hbudget henough).between_bind (composed_expression budget)
  intro _
  apply Agree.behind (composed_operation _)
  intro _
  apply Agree.behind (.emit rfl)
  intro _
  exact hblock.between_bind hcomposed '{' '}' fun _ => .refl n _

/-- A conditional has moved over its keyword before it reads a block. -/
theorem agreeHere_conditional :
    AgreeHere (n + 1) (conditional block budget) (conditional other enough) := by
  apply agreeHere_freshLabel
  intro number
  apply agreeHere_advance
  intro _
  apply Agree.behind (.base (.emit _))
  intro _
  apply (agree_expression hbudget henough).between_bind (composed_expression budget)
  intro _
  apply Agree.behind (composed_operation _)
  intro _
  apply Agree.behind (.emit rfl)
  intro _
  apply hblock.between_bind hcomposed
  intro _
  apply Agree.behind (.emit rfl)
  intro _
  apply Agree.behind (.base (.emit _))
  intro _
  apply Agree.behind (composed_atKeyword .elseKw)
  intro another
  dsimp only
  split
  · exact Agree.behind .advance fun _ => hblock.between_bind hcomposed '{' '}' fun _ => .refl n _
  · exact .refl n _

end

/-- Statements agree if their blocks do where less remains. -/
theorem agreeHere_statement {n budget enough : Nat} {block other : CompileM Unit}
    (hcomposed : Composed Special block) (hblock : Agree n block other) (hbudget : n < budget)
    (henough : n < enough) (kind : StatementKind) :
    AgreeHere (n + 1) (statement block budget kind) (statement other enough kind) := by
  have hbelow := Nat.le_of_lt hbudget
  have hbelow' := Nat.le_of_lt henough
  cases kind with
  | assignment => exact (agree_assignment hbudget henough).here
  | conditional => exact agreeHere_conditional hbelow hbelow' hcomposed hblock
  | loop => exact agreeHere_loop hbelow hbelow' hcomposed hblock
  | invocation => exact (agree_invocation hbudget henough).here
  | exit => exact (agree_exit hbudget henough).here

/-- Every statement moves over a token, its keyword at least. -/
theorem drops_statement {block : CompileM Unit} (hcomposed : Composed Special block) (budget : Nat)
    (kind : StatementKind) : Drops (statement block budget kind) := by
  apply (composed_statement hcomposed budget kind).falls.drops
  cases kind with
  | assignment | invocation | exit => exact blind_advance _
  | conditional | loop => exact blind_freshLabel fun _ => blind_advance _

/-- Blocks nest less deep than there are tokens. -/
theorem agree_statements {n budget enough : Nat} (hbudget : n < budget) (henough : n < enough) :
    Agree n (statements budget) (statements enough) := by
  obtain ⟨budget, rfl⟩ := Nat.exists_eq_add_one_of_ne_zero (show budget ≠ 0 by omega)
  obtain ⟨enough, rfl⟩ := Nat.exists_eq_add_one_of_ne_zero (show enough ≠ 0 by omega)
  have hcomposed := composed_statements budget
  refine Agree.many ?_ (drops_statement hcomposed budget) (by omega) (by omega)
  cases n with
  -- where no token is left, no statement begins
  | zero => exact fun kind => agreeHere_zero _ _
  | succ n =>
    have hblock : Agree n (statements budget) (statements enough) :=
      agree_statements (by omega) (by omega)
    exact agreeHere_statement hcomposed hblock (by omega) (by omega)
termination_by n

/-! ## Declarations -/

section

variable {n : Nat} {budget enough : Nat} (hbudget : n ≤ budget) (henough : n ≤ enough)

include hbudget henough

theorem agree_varDeclaration (kind : VarKind) :
    Agree n (varDeclaration budget kind) (varDeclaration enough kind) := by
  apply Agree.behind .advance
  intro _
  apply Agree.behind composed_type
  intro type
  apply ((Agree.refl n name).commaList composed_name hbudget henough).before
  exact composed_commaList composed_name budget

theorem agree_varDeclarations (head : Token → Option VarKind) :
    Agree n (many head (varDeclaration budget) budget)
      (many head (varDeclaration enough) enough) := by
  refine Agree.many (fun kind => ?_) (fun kind => ?_) hbudget henough
  · exact (agree_varDeclaration hbudget henough kind).here
  · exact (composed_varDeclaration budget kind).falls.drops (blind_advance _)

theorem agree_parameters : Agree n (parameters budget) (parameters enough) := by
  apply Agree.behind (composed_atSymbol ')')
  intro none
  split
  · exact .refl n _
  · have hitem : Composed Special (do return (← type, ← name) : CompileM (String × String)) := by
      apply Composed.bind composed_type
      intro type
      exact .bind composed_name fun _ => .pure _
    apply ((Agree.refl n _).commaList hitem hbudget henough).before
    exact composed_commaList hitem budget

end

/-! ## Subroutines and the class -/

section

variable {n : Nat} {budget enough : Nat} (hbudget : n < budget) (henough : n < enough)

include hbudget henough

theorem agree_subroutineBody (kind : SubroutineKind) :
    Agree n (subroutineBody budget kind) (subroutineBody enough kind) := by
  apply Agree.behind (composed_expectSymbol '{')
  intro _
  apply (agree_varDeclarations (Nat.le_of_lt hbudget) (Nat.le_of_lt henough) bodyVarKind?).bind
  · exact composed_many (fun _ kind _ => composed_varDeclaration budget kind) budget
  intro _
  apply Agree.look
  intro named
  apply Agree.look
  intro seen
  apply Agree.look
  intro compiler
  apply Agree.behind (.note (by simp))
  intro _
  apply Agree.behind (.note (by simp))
  intro _
  apply Agree.behind (.emit rfl)
  intro _
  apply Agree.behind (composed_emitAll fun command _ => .base (.emit command))
  intro _
  exact (agree_statements hbudget henough).before (composed_statements budget) _

theorem agree_subroutine (kind : SubroutineKind) :
    Agree n (subroutine budget kind) (subroutine enough kind) := by
  have hparameters := agree_parameters (Nat.le_of_lt hbudget) (Nat.le_of_lt henough)
  have hbehind : Agree n
      (between '(' (parameters budget) ')' >>= fun _ => subroutineBody budget kind)
      (between '(' (parameters enough) ')' >>= fun _ => subroutineBody enough kind) := by
    apply hparameters.between_bind (composed_parameters budget)
    intro _
    exact agree_subroutineBody hbudget henough kind
  -- the first token is passed over here, so everything behind it may use one round less
  apply Agree.behind .advance
  intro _
  apply Agree.behind .startSubroutine
  intro _
  apply Agree.behind composed_returnType
  intro _
  apply Agree.behind composed_name
  intro subroutineName
  apply Agree.behind (.nameSubroutine subroutineName)
  intro _
  dsimp only
  split
  · apply Agree.look
    intro compiler
    exact Agree.behind (.define _ _ _) fun _ => hbehind
  · exact hbehind

/-- The class as a whole. -/
theorem agree_classDeclaration : Agree n (classDeclaration budget) (classDeclaration enough) := by
  apply Agree.behind (composed_expect _)
  intro _
  apply Agree.behind composed_name
  intro className
  apply Agree.behind (.nameClass className)
  intro _
  apply Agree.behind (.note (by simp))
  intro _
  apply Agree.behind (composed_expectSymbol '{')
  intro _
  apply (agree_varDeclarations (Nat.le_of_lt hbudget) (Nat.le_of_lt henough) classVarKind?).bind
  · exact composed_many (fun _ kind _ => composed_varDeclaration budget kind) budget
  intro _
  have hcomposed := fun kind => composed_subroutine (composed_statements budget) kind
  apply Agree.before _ (composed_many (fun _ kind _ => hcomposed kind) budget)
  refine Agree.many (fun kind => ?_) (fun kind => ?_) (Nat.le_of_lt hbudget) (Nat.le_of_lt henough)
  · exact (agree_subroutine hbudget henough kind).here
  · exact (hcomposed kind).falls.drops (blind_advance _)

end

/-- **The budget decides nothing.** A run is the same within every budget above what its lexer
can still yield. -/
theorem compile_eq_compileWithin {compiler : Compiler} {budget : Nat}
    (hbudget : compiler.lexer.budget < budget) :
    compile compiler = compileWithin budget compiler := by
  rw [compile_eq]
  cases hrun : advance compiler with
  | error error reached => exact (bind_error hrun).trans (bind_error hrun).symm
  | ok value reached =>
    refine (bind_ok hrun).trans (Eq.trans ?_ (bind_ok hrun).symm)
    have hclass : Agree compiler.lexer.budget (classDeclaration (compiler.lexer.budget + 2))
        (classDeclaration budget) := agree_classDeclaration (by omega) hbudget
    apply hclass.before _ _ reached (remaining_advance hrun)
    exact composed_classDeclaration (composed_statements _)

end Jack.Compiler
