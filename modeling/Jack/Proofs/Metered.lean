/-
A meter on the compiler, and what its readings can be.

How often a run asks for the next token, or whether a loop ends because its bound is used up, is
not to be seen from what the run does to a compiler. So the rules are run on another kind of states:
a compiler with a meter, which moves at every call for the next token and at every bound that is
used up. The rules are one text for both kinds (`Actions`), so a run with a meter can only differ
from the one without in what the steps do.

`Pays` compares the two runs of a rule: they end in the same way, no bound is used up, and every
call is paid for by a token that was ahead and is so no more. A call is made only where a token is
the current one, and that token pays.

What pays for the calls also bounds the rounds and the depth. A round of a loop begins with a
token and moves over it (`Round`), so where at most `n` tokens are ahead a loop goes round at most
`n` times, and a bound above `n` is never used up (`Within.many`).
-/
import Jack.Proofs.RecognisedClass

set_option autoImplicit false

namespace Jack

open Vm (Command)

/-! ## Tokens that are left -/

namespace Lexer

/-- How many tokens a lexer can still deliver, if one goes on behind every error. Errors do not
count: no rule goes on behind one. -/
def tokensLeft (lexer : Lexer) : Nat := lexer.results.countP (·.isOk)

variable {lexer reached : Lexer}

/-- A token that is delivered is one less to deliver. -/
theorem tokensLeft_of_token {token : Token} (hpull : next lexer = .ok (some token) reached) :
    lexer.tokensLeft = reached.tokensLeft + 1 := by
  rw [tokensLeft, results_of_token hpull, List.countP_cons_of_pos rfl, tokensLeft]

/-- Behind the end nothing is left. -/
theorem tokensLeft_of_end (hpull : next lexer = .ok none reached) : reached.tokensLeft = 0 := by
  rw [tokensLeft, results_of_end (spent_of_next hpull).next_eq, List.countP_nil]

end Lexer

namespace Compiler

/-- How many tokens are ahead, with the current one. -/
def tokensAhead (compiler : Compiler) : Nat :=
  compiler.lexer.tokensLeft + if compiler.current.isSome then 1 else 0

/-- Behind a call, what is ahead is what the lexer could deliver. -/
theorem tokensAhead_of_advance {compiler reached : Compiler}
    (hrun : advance compiler = .ok () reached) :
    reached.tokensAhead ≤ compiler.lexer.tokensLeft := by
  unfold advance at hrun
  split at hrun
  · next current lexer hnext =>
    cases hrun
    cases current with
    | none => simp [tokensAhead, Lexer.tokensLeft_of_end hnext]
    | some token => simp [tokensAhead, Lexer.tokensLeft_of_token hnext]
  · cases hrun

/-! ## Steps that read nothing -/

section Still

variable {α : Type}

/-- A step that leaves the lexer and the current token as they are, whether it succeeds or fails.
Unlike a silent one it may complain about the current token. -/
structure Still (action : CompileM α) : Prop where
  lexer_eq : ∀ compiler, (after (action compiler)).lexer = compiler.lexer
  current_eq : ∀ compiler, (after (action compiler)).current = compiler.current

theorem Silent.still {action : CompileM α} (h : Silent action) : Still action :=
  ⟨fun compiler => (h compiler).1, fun compiler => (h compiler).2.1⟩

theorem still_unexpected (wanted : String) : Still (unexpected wanted : CompileM α) :=
  ⟨fun _ => rfl, fun _ => rfl⟩

theorem still_tooManyArguments (callee : String) : Still (tooManyArguments callee) :=
  ⟨fun _ => rfl, fun _ => rfl⟩

theorem still_startSubroutine : Still startSubroutine := ⟨fun _ => rfl, fun _ => rfl⟩

theorem still_nameSubroutine (subroutineName : String) : Still (nameSubroutine subroutineName) :=
  ⟨fun _ => rfl, fun _ => rfl⟩

theorem still_nameClass (className : String) : Still (nameClass className) :=
  ⟨fun _ => rfl, fun _ => rfl⟩

end Still

/-! ## The meter -/

/-- A compiler with a meter. The meter is not read by anything that the compiler does. -/
structure Metered where
  compiler : Compiler
  /-- How often the next token was asked for. -/
  calls : Nat := 0
  /-- How often a bound was used up. -/
  overruns : Nat := 0

/-- An action of a compiler with a meter. -/
abbrev MeterM := ActionM Metered

variable {α β : Type}

/-- The result of an action with a reading of the meter. -/
def withMeter (calls overruns : Nat) :
    EStateM.Result Error Compiler α → EStateM.Result Error Metered α
  | .ok value compiler => .ok value ⟨compiler, calls, overruns⟩
  | .error error compiler => .error error ⟨compiler, calls, overruns⟩

/-- Every call and every bound that is used up moves the meter; nothing else does. A deferred
action runs with the meter, so that its calls count as well. -/
instance : Actions Metered where
  look := fun metered => .ok metered.compiler metered
  still action := fun ⟨compiler, calls, overruns⟩ => withMeter calls overruns (action compiler)
  move := fun ⟨compiler, calls, overruns⟩ => withMeter (calls + 1) overruns (advance compiler)
  capture action := fun ⟨compiler, calls, overruns⟩ =>
    match action ⟨compiler.opened, calls, overruns⟩ with
    | .ok _ ⟨reached, calls, overruns⟩ =>
      .ok (reached.deferred.headD []).reverse
        ⟨{ reached with deferred := reached.deferred.tail }, calls, overruns⟩
    | .error error ⟨reached, calls, overruns⟩ =>
      .error error ⟨{ reached with deferred := reached.deferred.tail }, calls, overruns⟩
  overrun := fun ⟨compiler, calls, overruns⟩ => .ok () ⟨compiler, calls, overruns + 1⟩

/-! ## Runs that pay for their calls -/

/-- How many calls a run may have made that ended in this way: the tokens ahead at the end were not
spent, and `used` tokens were at least. -/
def Affordable (compiler : Compiler) (used spent : Nat) : EStateM.Result Error Compiler α → Prop
  | .ok _ reached => used ≤ spent ∧ spent + reached.tokensAhead ≤ compiler.tokensAhead
  | .error _ _ => spent ≤ compiler.tokensAhead

/-- However a run ended, it made no more calls than there were tokens ahead of it. -/
theorem Affordable.le_tokensAhead {compiler : Compiler} {used spent : Nat}
    {result : EStateM.Result Error Compiler α} (h : Affordable compiler used spent result) :
    spent ≤ compiler.tokensAhead := by
  cases result with
  | ok value reached => exact (Nat.le_add_right _ _).trans h.2
  | error error reached => exact h

/-- From this state, the metered action runs as the plain one does, uses up no bound, and makes no
more calls than it moves over tokens, which are `used` at least if it succeeds. -/
def Pays (used : Nat) (action : MeterM α) (plain : CompileM α) (compiler : Compiler) : Prop :=
  ∃ spent, Affordable compiler used spent (plain compiler) ∧ ∀ calls overruns,
    action ⟨compiler, calls, overruns⟩ = withMeter (calls + spent) overruns (plain compiler)

namespace Pays

variable {compiler : Compiler} {used more : Nat} {action : MeterM α} {plain : CompileM α}

/-- What a run has moved over may be forgotten. -/
theorem weaken (h : Pays used action plain compiler) : Pays 0 action plain compiler := by
  obtain ⟨spent, hspent, hrun⟩ := h
  refine ⟨spent, ?_, hrun⟩
  cases hplain : plain compiler with
  | ok value reached =>
    rw [hplain] at hspent
    exact ⟨Nat.zero_le _, hspent.2⟩
  | error error reached =>
    rw [hplain] at hspent
    exact hspent

/-- A step that reads nothing costs nothing. -/
theorem still {step : CompileM α} (hstep : Still step) (compiler : Compiler) :
    Pays 0 (Actions.still step) (Actions.still step) compiler := by
  refine ⟨0, ?_, fun calls overruns => rfl⟩
  rw [still_eq]
  have hlexer := hstep.lexer_eq compiler
  have hcurrent := hstep.current_eq compiler
  cases hrun : step compiler with
  | ok value reached =>
    rw [hrun] at hlexer hcurrent
    refine ⟨Nat.le_refl 0, ?_⟩
    rw [Nat.zero_add, tokensAhead, tokensAhead, ← hlexer, ← hcurrent]
    exact Nat.le_refl _
  | error error reached => exact Nat.zero_le _

theorem pure (value : α) (compiler : Compiler) :
    Pays 0 (Pure.pure value) (Pure.pure value) compiler :=
  ⟨0, ⟨Nat.le_refl 0, (Nat.zero_add _).le⟩, fun _ _ => rfl⟩

/-- The current token pays for the call that moves over it. -/
theorem move (hcurrent : compiler.current.isSome) :
    Pays 1 Actions.move Actions.move compiler := by
  refine ⟨1, ?_, fun calls overruns => rfl⟩
  rw [move_eq]
  have hahead : compiler.tokensAhead = compiler.lexer.tokensLeft + 1 := by
    rw [tokensAhead, if_pos hcurrent]
  cases hrun : Compiler.advance compiler with
  | ok _ reached =>
    have hleft := tokensAhead_of_advance hrun
    exact ⟨Nat.le_refl 1, by omega⟩
  | error error reached =>
    change 1 ≤ compiler.tokensAhead
    omega

/-- A sequence pays if its halves do; the second one runs where the first one used tokens up. -/
theorem bind {next : α → MeterM β} {plainNext : α → CompileM β}
    (h : Pays used action plain compiler)
    (hnext : ∀ value reached, plain compiler = .ok value reached →
      used + reached.tokensAhead ≤ compiler.tokensAhead →
      Pays more (next value) (plainNext value) reached) :
    Pays (used + more) (action >>= next) (plain >>= plainNext) compiler := by
  obtain ⟨spent, hspent, hrun⟩ := h
  -- if the first action fails, its own budget is all that was used; otherwise both budgets add up
  cases hplain : plain compiler with
  | error error reached =>
    rw [hplain] at hspent hrun
    refine ⟨spent, by rw [bind_error hplain]; exact hspent, fun calls overruns => ?_⟩
    rw [bind_error hplain]
    simp only [Bind.bind, EStateM.bind, hrun, withMeter]
  | ok value reached =>
    rw [hplain] at hspent hrun
    obtain ⟨hused, hahead⟩ := hspent
    obtain ⟨further, hfurther, hrest⟩ := hnext value reached hplain (by omega)
    refine ⟨spent + further, ?_, fun calls overruns => ?_⟩
    · rw [bind_ok hplain]
      cases hlast : plainNext value reached with
      | ok result last =>
        rw [hlast] at hfurther
        obtain ⟨hmore, hleft⟩ := hfurther
        exact ⟨by omega, by omega⟩
      | error error last =>
        rw [hlast] at hfurther
        have hlimit : further ≤ reached.tokensAhead := hfurther
        show spent + further ≤ compiler.tokensAhead
        omega
    · rw [bind_ok hplain]
      simp only [Bind.bind, EStateM.bind, hrun, withMeter, hrest]
      rw [Nat.add_assoc]

/-- The second half may do with what the first one left. -/
theorem behind {next : α → MeterM β} {plainNext : α → CompileM β}
    (h : Pays used action plain compiler)
    (hnext : ∀ value reached, used + reached.tokensAhead ≤ compiler.tokensAhead →
      Pays 0 (next value) (plainNext value) reached) :
    Pays 0 (action >>= next) (plain >>= plainNext) compiler :=
  (h.bind fun value reached _ hless => hnext value reached hless).weaken

/-- Capturing the commands of an action costs what the action costs. -/
theorem capture {action : MeterM Unit} {plain : CompileM Unit}
    (h : Pays used action plain compiler.opened) :
    Pays used (Actions.capture action) (Actions.capture plain) compiler := by
  obtain ⟨spent, hspent, hrun⟩ := h
  rw [Pays, capture_eq]
  refine ⟨spent, ?_, fun calls overruns => ?_⟩
  · cases hplain : plain compiler.opened with
    | ok value reached =>
      rw [hplain] at hspent
      rw [defer_of_ok hplain]
      exact hspent
    | error error reached =>
      rw [hplain] at hspent
      rw [defer_of_error hplain]
      exact hspent
  · simp only [Actions.capture, hrun]
    cases hplain : plain compiler.opened with
    | ok value reached => rw [defer_of_ok hplain]; rfl
    | error error reached => rw [defer_of_error hplain]; rfl

end Pays

/-! ## Actions that pay -/

/-- Pays from every state in which at most `n` tokens are ahead. -/
def Within (n : Nat) (action : MeterM α) (plain : CompileM α) : Prop :=
  ∀ compiler : Compiler, compiler.tokensAhead ≤ n → Pays 0 action plain compiler

/-- The same for states that have a current token. -/
def Here (n : Nat) (action : MeterM α) (plain : CompileM α) : Prop :=
  ∀ compiler : Compiler, compiler.current.isSome → compiler.tokensAhead ≤ n →
    Pays 0 action plain compiler

/-- The same for states that have a current token, and the action moves over a token. -/
def Round (n : Nat) (action : MeterM α) (plain : CompileM α) : Prop :=
  ∀ compiler : Compiler, compiler.current.isSome → compiler.tokensAhead ≤ n →
    Pays 1 action plain compiler

section

variable {n k : Nat} {action : MeterM α} {plain : CompileM α} {next : α → MeterM β}
  {plainNext : α → CompileM β}

theorem Within.mono (h : Within n action plain) (hle : k ≤ n) : Within k action plain :=
  fun compiler hahead => h compiler (hahead.trans hle)

theorem Round.mono (h : Round n action plain) (hle : k ≤ n) : Round k action plain :=
  fun compiler hcurrent hahead => h compiler hcurrent (hahead.trans hle)

theorem Within.here (h : Within n action plain) : Here n action plain :=
  fun compiler _ hahead => h compiler hahead

theorem Round.here (h : Round n action plain) : Here n action plain :=
  fun compiler hcurrent hahead => (h compiler hcurrent hahead).weaken

theorem Within.pure (value : α) : Within n (Pure.pure value) (Pure.pure value) :=
  fun compiler _ => .pure value compiler

theorem Within.still {step : CompileM α} (hstep : Still step) :
    Within n (Actions.still step) (Actions.still step) :=
  fun compiler _ => .still hstep compiler

theorem Within.silent {step : CompileM α} (hstep : Silent step) :
    Within n (Actions.still step) (Actions.still step) :=
  .still hstep.still

theorem Within.bind (h : Within n action plain)
    (hnext : ∀ value, Within n (next value) (plainNext value)) :
    Within n (action >>= next) (plain >>= plainNext) := by
  intro compiler hahead
  refine (h compiler hahead).behind fun value reached hless => hnext value reached ?_
  omega

/-- A deferred action reads what the action reads. -/
theorem Within.capture {action : MeterM Unit} {plain : CompileM Unit} (h : Within n action plain) :
    Within n (Actions.capture action) (Actions.capture plain) :=
  fun compiler hahead => (h compiler.opened hahead).capture

/-- A look at the state costs nothing. -/
theorem Within.look {next : Compiler → MeterM β} {plainNext : Compiler → CompileM β}
    (hnext : ∀ seen, Within n (next seen) (plainNext seen)) :
    Within n (Actions.look >>= next) (Actions.look >>= plainNext) :=
  fun compiler hahead => hnext compiler compiler hahead

/-- Where the rules are told apart by the state, the state is known. -/
theorem Within.seen {next : Compiler → MeterM β} {plainNext : Compiler → CompileM β}
    (hnext : ∀ compiler : Compiler, compiler.tokensAhead ≤ n →
      Pays 0 (next compiler) (plainNext compiler) compiler) :
    Within n (Actions.look >>= next) (Actions.look >>= plainNext) := hnext

/-- What is done if the current token is the wanted one may rely on it. -/
theorem Within.asks (token : Token) {next : Bool → MeterM β} {plainNext : Bool → CompileM β}
    (hyes : Here n (next true) (plainNext true)) (hno : Within n (next false) (plainNext false)) :
    Within n ((do return (← Actions.look).current == some token) >>= next)
      ((do return (← Actions.look).current == some token) >>= plainNext) := by
  intro compiler hahead
  change Pays 0 (next (compiler.current == some token)) (plainNext (compiler.current == some token))
    compiler
  cases htoken : compiler.current == some token with
  | false => exact hno compiler hahead
  | true =>
    refine hyes compiler ?_ hahead
    rw [eq_of_beq htoken]
    rfl

/-- Behind the current token less is ahead. -/
theorem Round.move {next : Unit → MeterM β} {plainNext : Unit → CompileM β}
    (hnext : ∀ value, Within n (next value) (plainNext value)) :
    Round (n + 1) (Actions.move >>= next) (Actions.move >>= plainNext) := by
  intro compiler hcurrent hahead
  refine (Pays.move hcurrent).bind fun value reached _ hless => hnext value reached ?_
  omega

/-- Something may be done in front that reads nothing. -/
theorem Round.behind_still {step : CompileM α} (hstep : Still step)
    (hnext : ∀ value, Round n (next value) (plainNext value)) :
    Round n (Actions.still step >>= next) (Actions.still step >>= plainNext) := by
  intro compiler hcurrent hahead
  rw [← Nat.zero_add 1]
  refine (Pays.still hstep compiler).bind fun value reached hrun hless => ?_
  have hsame := hstep.current_eq compiler
  rw [still_eq] at hrun
  rw [hrun] at hsame
  refine hnext value reached ?_ (by omega)
  rwa [← hsame] at hcurrent

/-! ## Tokens that are wanted -/

/-- A complaint ends a run, so it pays for whatever is asked. -/
theorem pays_unexpected (wanted : String) (used : Nat) (compiler : Compiler) :
    Pays used (Actions.still (unexpected wanted) : MeterM α) (Actions.still (unexpected wanted))
      compiler :=
  ⟨0, Nat.zero_le _, fun _ _ => rfl⟩

/-- A token that is wanted and comes next pays for the call behind it. -/
theorem pays_expect (token : Token) (compiler : Compiler) :
    Pays 1 (expect token) (expect token) compiler := by
  change Pays 1 (if compiler.current == some token then Actions.move
      else Actions.still (unexpected token.render))
    (if compiler.current == some token then Actions.move
      else Actions.still (unexpected token.render)) compiler
  split
  · next htoken =>
    apply Pays.move
    rw [eq_of_beq htoken]
    rfl
  · exact pays_unexpected _ _ _

theorem within_expect (token : Token) : Within n (expect token) (expect token) :=
  fun compiler _ => (pays_expect token compiler).weaken

/-- Behind a given token less is ahead, for it was the current one. -/
theorem Within.behind_expect {token : Token} {next : Unit → MeterM β}
    {plainNext : Unit → CompileM β} (hnext : ∀ value, Within n (next value) (plainNext value)) :
    Within (n + 1) (expect token >>= next) (expect token >>= plainNext) := by
  intro compiler hahead
  refine (pays_expect token compiler).behind fun value reached hless => hnext value reached ?_
  omega

/-- Inside, the opening symbol is no longer ahead. -/
theorem Within.between_succ (h : Within n action plain) (opening closing : Char) :
    Within (n + 1) (between opening action closing)
      (between opening plain closing) :=
  .behind_expect fun _ => h.bind fun value => (within_expect _).bind fun _ => .pure value

/-- The same where it does not matter that less is ahead inside. -/
theorem Within.between (h : Within n action plain) (opening closing : Char) :
    Within n (between opening action closing) (between opening plain closing) :=
  (h.between_succ opening closing).mono (Nat.le_succ n)

/-! ## Loops -/

/-- Every round moves over the token that asked for it, so that a bound above the number of tokens
ahead is never used up. -/
theorem Within.many {head : Token → Option α} {rule : α → MeterM Unit} {plain : α → CompileM Unit}
    {budget : Nat} (hrule : ∀ found, Round n (rule found) (plain found)) (hbudget : n < budget) :
    Within n (many head rule budget) (many head plain budget) := by
  induction budget generalizing n with
  | zero => exact absurd hbudget (Nat.not_lt_zero n)
  | succ budget ih =>
    apply Within.seen
    intro compiler hahead
    split
    · next found hfound =>
      have hcurrent : compiler.current.isSome := by
        obtain ⟨token, htoken, -⟩ := Option.bind_eq_some_iff.1 hfound
        rw [htoken]
        rfl
      refine (hrule found compiler hcurrent hahead).behind fun value reached hless => ?_
      -- one token less is ahead, and one round less is left
      refine ih (fun found => (hrule found).mono ?_) ?_ reached (Nat.le_refl _) <;> omega
    · exact .pure () compiler

/-- Another item of a list stands behind a comma, so there is a round left for it. -/
theorem Within.commaListFrom {item : MeterM α} {plain : CompileM α} {budget : Nat}
    (hitem : Within n item plain) (hbudget : n < budget) (found : List α) :
    Within n (commaListFrom item found budget)
      (commaListFrom plain found budget) := by
  induction budget generalizing n found with
  | zero => exact absurd hbudget (Nat.not_lt_zero n)
  | succ budget ih =>
    apply Within.asks (.symbol ',')
    · intro compiler hcurrent hahead
      refine (Pays.move hcurrent).behind fun _ reached hless => ?_
      -- one token less is ahead, and one item less may follow
      refine (hitem.mono (Nat.sub_le n 1)).bind (fun value => ?_) reached (by omega)
      exact ih (hitem.mono (Nat.sub_le n 1)) (by omega) (value :: found)
    · exact .pure _

theorem Within.commaList {item : MeterM α} {plain : CompileM α} {budget : Nat}
    (hitem : Within n item plain) (hbudget : n < budget) :
    Within n (commaList item budget) (commaList plain budget) :=
  hitem.bind fun value => hitem.commaListFrom hbudget [value]

end

end Compiler

end Jack
