/-
Every run comes to an end, and how soon.

The lexer is the simpler half. A line has at most as many things to tell as bytes: a lexeme has a
character to itself, a line with a fault is not empty, and neither is one that is not text. So
pulling on behind every error ends after at most as many items as there are bytes.

For the compiler the rules are gone through once with a meter. Each of them calls for a token only
where one is the current one, and nests or goes round only behind a token it has moved over. So the
first call of a run, that for the first token, is the only one without a token to pay for it, and
the bound that a run computes at its beginning is never used up.
-/
import Mathlib.Algebra.GroupWithZero.Nat
import Jack.Proofs.Metered
import Jack.Proofs.Budget
import Jack.Proofs.FileBuild
import Jack.Proofs.Draining

set_option autoImplicit false

namespace Jack

/-! ## How much a source can tell -/

/-- How many events a line has room for. -/
def Line.room : Line → Nat
  | text characters => characters.length
  | unreadable _ => 1

namespace Source

/-- A character has one byte or more, so a text is no longer than what it is encoded to. -/
theorem length_le_encoded (text : List Char) : text.length ≤ (encoded text).length := by
  induction text with
  | nil => exact Nat.le_refl 0
  | cons c rest ih =>
    have hc := List.length_pos_iff.2 (String.utf8EncodeChar_ne_nil (c := c))
    have hcons : encoded (c :: rest) = String.utf8EncodeChar c ++ encoded rest := rfl
    rw [hcons, List.length_append, List.length_cons]
    omega

/-- Dropping returns at the end of a line makes no line longer. -/
theorem length_trimReturns (characters : List Char) :
    (trimReturns characters).length ≤ characters.length := by
  rw [trimReturns, List.length_reverse, ← characters.length_reverse]
  exact (List.dropWhile_sublist _).length_le

/-- A line has no more room than bytes. -/
theorem room_decodeLine (bytes : List UInt8) : (decodeLine bytes).room ≤ bytes.length := by
  cases hline : decodeLine bytes with
  | text characters =>
    -- a line that can be read is what some text is encoded to
    obtain ⟨text, rfl⟩ := exists_encoded_of_decodeLine hline
    rw [decodeLine_encoded] at hline
    cases hline
    exact (length_trimReturns text).trans (length_le_encoded text)
  | unreadable cause =>
    refine List.length_pos_iff.2 ?_
    rintro rfl
    cases hline

/-- The lines hold no more bytes than they were cut from. -/
theorem sum_cutLines (line : List UInt8) (lines : List (List UInt8)) (bytes : List UInt8) :
    ((cutLines line lines bytes).map List.length).sum ≤
      (lines.map List.length).sum + line.length + bytes.length := by
  induction bytes generalizing line lines with
  | nil =>
    rw [cutLines]
    split <;> simp
  | cons byte rest ih =>
    rw [cutLines]
    split
    · have hrest := ih [] (line.reverse :: lines)
      simp only [List.map_cons, List.sum_cons, List.length_reverse, List.length_nil,
        List.length_cons] at hrest ⊢
      omega
    · have hrest := ih (byte :: line) lines
      rw [List.length_cons] at hrest ⊢
      omega

/-- The lines of a source have no more room than the source has bytes. The line feeds are left over,
and so are the returns. -/
theorem room_ofBytes (bytes : List UInt8) :
    ((ofBytes bytes).map Line.room).sum ≤ bytes.length := by
  have hlines : ∀ lines : List (List UInt8),
      ((lines.map decodeLine).map Line.room).sum ≤ (lines.map List.length).sum := by
    intro lines
    induction lines with
    | nil => exact Nat.le_refl 0
    | cons line lines ih => exact Nat.add_le_add (room_decodeLine line) ih
  have hcut := sum_cutLines [] [] bytes
  simp only [List.map_nil, List.sum_nil, List.length_nil, Nat.zero_add] at hcut
  exact (hlines _).trans hcut

end Source

namespace Lexer

/-- A source has no more to tell than its lines have room for. -/
theorem length_eventsFrom (inComment : Bool) (linesRead : Nat) (source : Source) :
    (eventsFrom inComment linesRead source).length ≤ (source.map Line.room).sum := by
  fun_induction eventsFrom inComment linesRead source with
  | case1 => exact Nat.le_refl 0
  | case2 inComment linesRead cause rest ih =>
    rw [List.length_cons, List.map_cons, List.sum_cons, Nat.add_comm]
    exact Nat.add_le_add (Nat.le_refl 1) ih
  | case3 inComment linesRead characters rest fault hscan ih =>
    -- there is no fault in an empty line, in a comment or not
    have hroom : 0 < characters.length := by
      refine List.length_pos_iff.2 ?_
      rintro rfl
      cases inComment <;> cases hscan
    rw [List.length_cons, List.map_cons, List.sum_cons, Nat.add_comm]
    exact Nat.add_le_add hroom ih
  | case4 inComment linesRead characters rest scan hscan ih =>
    rw [List.length_append, List.length_map, List.map_cons, List.sum_cons]
    exact Nat.add_le_add (Lexeme.length_scanLine hscan) ih

/-- Everything there is to pull from a source of bytes, errors included, is at most as much as there
are bytes. -/
theorem length_results_ofBytes (bytes : List UInt8) :
    (results (ofBytes bytes)).length ≤ bytes.length := by
  rw [results_eq_pending (aligned_ofBytes bytes), List.length_map]
  exact (length_eventsFrom false 0 _).trans (Source.room_ofBytes bytes)

/-- The budget of the lexer allows for one more than the room of each line. It is counted without
looking at what is in the lines. -/
theorem room_le_lineBudget (source : Source) : (source.map Line.room).sum ≤ lineBudget source := by
  induction source with
  | nil => exact Nat.le_refl 0
  | cons line rest ih =>
    rw [List.map_cons, List.sum_cons, lineBudget]
    refine Nat.add_le_add ?_ ih
    cases line with
    | text characters => exact Nat.le_succ _
    | unreadable cause => exact Nat.le_refl 1

/-- The bound that a run computes is one on the tokens. -/
theorem tokensLeft_le_budget (bytes : List UInt8) :
    (ofBytes bytes).tokensLeft ≤ (ofBytes bytes).budget := by
  have hevents := length_eventsFrom false 0 (Source.ofBytes bytes)
  rw [tokensLeft, results_eq_pending (aligned_ofBytes bytes), budget_eq]
  refine List.countP_le_length.trans ?_
  rw [List.length_map]
  exact (hevents.trans (room_le_lineBudget _)).trans (Nat.le_add_left _ _)

end Lexer

/-! ## Expressions -/

namespace Compiler

variable {n budget : Nat}

/-- A token that is the current one is ahead. -/
theorem exists_eq_succ {compiler : Compiler} (hcurrent : compiler.current.isSome)
    (hahead : compiler.tokensAhead ≤ n) : ∃ k, n = k + 1 := by
  rw [tokensAhead, if_pos hcurrent] at hahead
  exact ⟨n - 1, by omega⟩

/-- Emitting calls for no token. -/
theorem within_emit (command : Vm.Command) :
    Within n (Actions.still (emit command)) (Actions.still (emit command)) :=
  .silent (silent_emit command)

/-- A name costs the call for the token behind it, and the name itself pays for that. -/
theorem within_name : Within n name name := by
  apply Within.seen
  intro compiler _
  split
  · next found hcurrent =>
    refine (Pays.move ?_).behind fun _ reached _ => .pure found reached
    rw [hcurrent]
    rfl
  · exact pays_unexpected _ 0 _

/-- A type costs the call for the token behind it, as a name does. -/
theorem within_type : Within n type type := by
  apply Within.seen
  intro compiler _
  split
  · next found htype =>
    refine (Pays.move ?_).behind fun _ reached _ => .pure found reached
    obtain ⟨token, hcurrent, -⟩ := Option.bind_eq_some_iff.1 htype
    rw [hcurrent]
    rfl
  · exact pays_unexpected _ 0 _

/-- A chain of terms. Every further term stands behind an operator, so the rounds are paid for by
the operators and their number stays below the bound. -/
theorem within_chain {term : MeterM Unit} {plain : CompileM Unit} (hterm : Within n term plain)
    (hbudget : n < budget) : Within n (chain term budget) (chain plain budget) := by
  refine hterm.bind fun _ => Within.many (fun command => ?_) hbudget
  refine (Round.move fun _ => ?_).mono (Nat.le_succ n)
  exact hterm.bind fun _ => within_emit command

/-- Arguments cost nothing themselves; the commas between them pay for going on. -/
theorem within_arguments {expression : MeterM Unit} {plain : CompileM Unit}
    (hexpression : Within n expression plain) (hbudget : n < budget) :
    Within n (arguments expression budget) (arguments plain budget) := by
  apply Within.asks (.symbol ')')
  · exact (Within.pure 0).here
  · exact (hexpression.commaList hbudget).bind fun _ => .pure _

/-- A dot pays for the name behind it, and there is no call for a token without one. -/
theorem within_callee (first : String) : Within n (callee first) (callee first) := by
  apply Within.asks (.symbol '.')
  · refine Round.here ((Round.move fun _ => ?_).mono (Nat.le_succ n))
    refine within_name.bind fun routine => Within.look fun seen => ?_
    cases seen.symbols.resolve? first with
    | none => exact .pure _
    | some symbol => exact (within_emit _).bind fun _ => .pure _
  · exact (within_emit _).bind fun _ => Within.look fun seen => .pure _

/-- A call pays bracket by bracket. Its failing over too many arguments calls for nothing. -/
theorem within_subroutineCall {expression : MeterM Unit} {plain : CompileM Unit}
    (hexpression : Within n expression plain) (hbudget : n < budget) (first : String) :
    Within n (subroutineCall expression budget first) (subroutineCall plain budget first) := by
  apply (within_callee first).bind
  rintro ⟨callee, receivers⟩
  apply ((within_arguments hexpression hbudget).between '(' ')').bind
  intro count
  split
  · exact within_emit _
  · exact .still (still_tooManyArguments callee)

/-- A term that begins with a name has moved over the name before it does anything else. So the
index or the arguments have one token less ahead of them. -/
theorem round_namedTerm {expression : MeterM Unit} {plain : CompileM Unit}
    (hexpression : Within n expression plain) (hbudget : n < budget) (first : String) :
    Round (n + 1) (namedTerm expression budget first) (namedTerm plain budget first) := by
  have hasks : ∀ c, Within n (atSymbol c) (atSymbol c) := fun c => Within.look fun seen => .pure _
  refine Round.move fun _ => (hasks '(').bind fun opened => (hasks '.').bind fun dotted => ?_
  split
  · exact within_subroutineCall hexpression hbudget first
  refine (hasks '[').bind fun indexed => ?_
  split
  · refine (Within.silent (silent_lookup first)).bind fun symbol => (within_emit _).bind fun _ => ?_
    refine (hexpression.between '[' ']').bind fun _ => (within_emit _).bind fun _ => ?_
    exact (within_emit _).bind fun _ => within_emit _
  · exact (Within.silent (silent_lookup first)).bind fun _ => within_emit _

/-- A term inside a term stands behind a token of the outer one. -/
theorem within_term (hbudget : n < budget) : Within n (term budget) (term budget) := by
  induction budget generalizing n with
  | zero => exact absurd hbudget (Nat.not_lt_zero n)
  | succ budget ih =>
    apply Within.seen
    intro compiler hahead
    cases hcurrent : compiler.current with
    | none => exact pays_unexpected _ 0 _
    | some token =>
      have hsome : compiler.current.isSome := by rw [hcurrent]; rfl
      -- whatever is inside has the first token of this term behind it
      obtain ⟨k, rfl⟩ := exists_eq_succ hsome hahead
      have hinner : Within k (term budget) (term budget) := ih (by omega)
      have hchain := within_chain hinner (show k < budget by omega)
      suffices hhere : Here (k + 1) _ _ from hhere compiler hsome hahead
      split
      case h_2 => exact (Round.move fun _ => Within.silent (silent_emitAll _)).here
      case h_7 => exact (hchain.between_succ '(' ')').here
      case h_8 => exact (Round.move fun _ => hinner.bind fun _ => within_emit _).here
      case h_9 => exact (Round.move fun _ => hinner.bind fun _ => within_emit _).here
      case h_10 => exact (round_namedTerm hchain (by omega) _).here
      case h_11 => exact (Within.still (still_unexpected "term")).here
      -- the other terms are one token
      all_goals exact (Round.move fun _ => within_emit _).here

/-- An expression within a bound on the tokens ahead. The bound serves for the depth of the terms
and for the length of the chain alike. -/
theorem within_expression (hbudget : n < budget) :
    Within n (expression budget) (expression budget) :=
  within_chain (within_term hbudget) hbudget

/-! ## Statements -/

/-- An assignment moves over its keyword first. Its index is put off, but it is read in its place
and paid for there. -/
theorem round_assignment (hbudget : n < budget) :
    Round (n + 1) (assignment budget) (assignment budget) := by
  have hexpression := within_expression hbudget
  refine Round.move fun _ => within_name.bind fun target => ?_
  refine (Within.silent (silent_lookup target)).bind fun symbol => ?_
  apply Within.asks (.symbol '[')
  · refine Within.here (((hexpression.between '[' ']').capture).bind fun index => ?_)
    refine (within_expect _).bind fun _ => hexpression.bind fun _ => ?_
    refine (within_expect _).bind fun _ => (within_emit _).bind fun _ => ?_
    refine (within_emit _).bind fun _ => ?_
    refine (Within.silent (silent_emitAll index)).bind fun _ => (within_emit _).bind fun _ => ?_
    exact (within_emit _).bind fun _ => (within_emit _).bind fun _ => within_emit _
  · refine (within_expect _).bind fun _ => hexpression.bind fun _ => ?_
    exact (within_expect _).bind fun _ => within_emit _

/-- A call as a statement moves over its keyword first. -/
theorem round_invocation (hbudget : n < budget) :
    Round (n + 1) (invocation budget) (invocation budget) := by
  refine Round.move fun _ => within_name.bind fun first => ?_
  refine (within_subroutineCall (within_expression hbudget) hbudget first).bind fun _ => ?_
  exact (within_expect _).bind fun _ => within_emit _

/-- A return moves over its keyword first, and a semicolon is all it needs behind it. -/
theorem round_exit (hbudget : n < budget) : Round (n + 1) (exit budget) (exit budget) := by
  have hbehind : Within n (do Actions.still (emit .ret); expectSymbol ';')
      (do Actions.still (emit .ret); expectSymbol ';') :=
    (within_emit .ret).bind fun _ => within_expect _
  refine Round.move fun _ => Within.asks (.symbol ';') ?_ ?_
  · exact ((within_emit _).bind fun _ => hbehind).here
  · exact (within_expression hbudget).bind fun _ => hbehind

section

variable {block : MeterM Unit} {plain : CompileM Unit} (hblock : Within n block plain)
  (hbudget : n < budget)

include hblock hbudget

/-- A block stands behind the keyword of its statement. -/
theorem round_loop : Round (n + 1) (loop block budget) (loop plain budget) := by
  refine Round.behind_still silent_freshLabel.still fun number => Round.move fun _ => ?_
  refine (within_emit _).bind fun _ => ?_
  refine ((within_expression hbudget).between '(' ')').bind fun _ => ?_
  refine (within_emit _).bind fun _ => (within_emit _).bind fun _ => ?_
  refine (hblock.between '{' '}').bind fun _ => ?_
  exact (within_emit _).bind fun _ => within_emit _

/-- The second block stands behind the keyword `else`, which pays for it. The number for the labels
is taken in front of the first token and costs nothing. -/
theorem round_conditional :
    Round (n + 1) (conditional block budget) (conditional plain budget) := by
  refine Round.behind_still silent_freshLabel.still fun number => Round.move fun _ => ?_
  refine (within_emit _).bind fun _ => ?_
  refine ((within_expression hbudget).between '(' ')').bind fun _ => ?_
  refine (within_emit _).bind fun _ => (within_emit _).bind fun _ => ?_
  refine (hblock.between '{' '}').bind fun _ => ?_
  refine (within_emit _).bind fun _ => (within_emit _).bind fun _ => ?_
  apply Within.asks (.keyword .elseKw)
  · refine Round.here ((Round.move fun _ => ?_).mono (Nat.le_succ n))
    exact (hblock.between '{' '}').bind fun _ => within_emit _
  · exact within_emit _

/-- Every statement moves over its keyword first. So statements can follow each other only as often
as there are tokens. -/
theorem round_statement (kind : StatementKind) :
    Round (n + 1) (statement block budget kind) (statement plain budget kind) := by
  cases kind with
  | assignment => exact round_assignment hbudget
  | conditional => exact round_conditional hblock hbudget
  | loop => exact round_loop hblock hbudget
  | invocation => exact round_invocation hbudget
  | exit => exact round_exit hbudget

end

/-- Statements, by induction on the bound: a block has lost the keyword of its statement, so there
is one token less ahead of it when the next bound is used. -/
theorem within_statements (hbudget : n + 1 < budget) :
    Within n (statements budget) (statements budget) := by
  induction budget generalizing n with
  | zero => exact absurd hbudget (Nat.not_lt_zero _)
  | succ budget ih =>
    refine Within.many (fun kind => ?_) (by omega)
    intro compiler hcurrent hahead
    obtain ⟨k, rfl⟩ := exists_eq_succ hcurrent hahead
    exact round_statement (ih (by omega)) (by omega) kind compiler hcurrent hahead

/-! ## Declarations -/

/-- A declaration moves over its keyword first. -/
theorem round_varDeclaration (hbudget : n < budget) (kind : VarKind) :
    Round n (varDeclaration budget kind) (varDeclaration budget kind) := by
  refine (Round.move fun _ => within_type.bind fun type => ?_).mono (Nat.le_succ n)
  refine (within_name.commaList hbudget).bind fun names => ?_
  exact (Within.silent (silent_defineAll type kind names)).bind fun _ => within_expect _

/-- Parameters are paid for by the commas between them. Declaring them afterwards calls for
nothing. -/
theorem within_parameters (hbudget : n < budget) :
    Within n (parameters budget) (parameters budget) := by
  apply Within.asks (.symbol ')')
  · exact (Within.pure _).here
  · have hitem : Within n (do return (← type, ← name)) (do return (← type, ← name)) :=
      within_type.bind fun type => within_name.bind fun _ => .pure _
    exact (hitem.commaList hbudget).bind fun found => .silent (silent_defineParameters found)

/-- The type of a result is one token, and moving over it is all that happens. -/
theorem within_returnType : Within n returnType returnType := by
  apply Within.asks (.keyword .voidKw)
  · intro compiler hcurrent _
    exact (Pays.move hcurrent).weaken
  · exact within_type.bind fun _ => .pure _

/-! ## Subroutines and the class -/

/-- A body needs a bound that is larger by two: one for the declarations, and one more for the
statements, whose blocks have bounds of their own. -/
theorem within_subroutineBody (hbudget : n + 1 < budget) (kind : SubroutineKind) :
    Within n (subroutineBody budget kind) (subroutineBody budget kind) := by
  have hbelow : n < budget := by omega
  refine (within_expect _).bind fun _ => ?_
  refine (Within.many (round_varDeclaration hbelow) hbelow).bind fun _ => ?_
  refine Within.look fun named => Within.look fun seen => Within.look fun compiler => ?_
  refine (Within.silent (silent_note _)).bind fun _ => (Within.silent (silent_note _)).bind fun _ => ?_
  refine (within_emit _).bind fun _ => (Within.silent (silent_emitAll _)).bind fun _ => ?_
  exact (within_statements hbudget).bind fun _ => within_expect _

/-- A subroutine moves over its keyword first, so subroutines can follow each other only as often as
there are tokens. -/
theorem round_subroutine (hbudget : n + 1 < budget) (kind : SubroutineKind) :
    Round n (subroutine budget kind) (subroutine budget kind) := by
  have hparameters := within_parameters (show n < budget by omega)
  have hbehind : Within n (do between '(' (parameters budget) ')'; subroutineBody budget kind)
      (do between '(' (parameters budget) ')'; subroutineBody budget kind) :=
    (hparameters.between '(' ')').bind fun _ => within_subroutineBody hbudget kind
  refine (Round.move fun _ => ?_).mono (Nat.le_succ n)
  refine (Within.still still_startSubroutine).bind fun _ => within_returnType.bind fun _ => ?_
  refine within_name.bind fun subroutineName => ?_
  refine (Within.still (still_nameSubroutine subroutineName)).bind fun _ => ?_
  split
  · exact Within.look fun seen => (Within.silent (silent_define _ _ _)).bind fun _ => hbehind
  · exact hbehind

/-- The class as a whole, behind the first token. -/
theorem within_classDeclaration (hbudget : n + 1 < budget) :
    Within n (classDeclaration budget) (classDeclaration budget) := by
  have hbelow : n < budget := by omega
  refine (within_expect _).bind fun _ => within_name.bind fun className => ?_
  refine (Within.still (still_nameClass className)).bind fun _ => ?_
  refine (Within.silent (silent_note _)).bind fun _ => (within_expect _).bind fun _ => ?_
  refine (Within.many (round_varDeclaration hbelow) hbelow).bind fun _ => ?_
  exact (Within.many (round_subroutine hbudget) hbelow).bind fun _ => within_expect _

/-- Closing the writer or complaining about a token that is left calls for nothing. -/
theorem within_finish : Within n finish finish := by
  refine Within.look fun seen => ?_
  split
  · exact (Within.still (still_unexpected _)).bind fun _ => .silent silent_close
  · exact .silent silent_close

/-- The first call is the only one that no token pays for. -/
theorem exists_calls_of_compileWithin {compiler : Compiler}
    (hbudget : compiler.lexer.tokensLeft + 1 < budget) :
    ∃ calls, calls ≤ compiler.lexer.tokensLeft + 1 ∧
      (compileWithin budget : MeterM Unit) { compiler } =
        withMeter calls 0 (compileWithin budget compiler) := by
  have hbehind : Within compiler.lexer.tokensLeft (do classDeclaration budget; finish)
      (do classDeclaration budget; finish) :=
    (within_classDeclaration hbudget).bind fun _ => within_finish
  have hfirst : (Actions.move : MeterM Unit) { compiler } =
      withMeter 1 0 (advance compiler) := rfl
  rw [compileWithin_eq, compileWithin]
  cases hrun : advance compiler with
  | error error reached =>
    rw [hrun] at hfirst
    refine ⟨1, Nat.le_add_left 1 _, ?_⟩
    rw [bind_error hrun]
    simp only [bind, EStateM.bind, hfirst, withMeter]
  | ok _ reached =>
    rw [hrun] at hfirst
    have hahead := tokensAhead_of_advance hrun
    -- from here on every call is paid for by a token that is ahead
    obtain ⟨spent, hspent, hrest⟩ := hbehind reached hahead
    refine ⟨1 + spent, ?_, ?_⟩
    · have hleft := hspent.le_tokensAhead
      omega
    · rw [bind_ok hrun, ← hrest 1 0]
      simp only [bind, EStateM.bind, hfirst, withMeter]

end Compiler

/-! ## Every run ends -/

open Compiler in
/-- **Every run ends.** Pulling from a source of bytes, and going on behind every error, ends after
at most as many items as there are bytes, and there is nothing left behind them. A run of the
compiler is that of its rules within its own bound or any larger one, and with a meter they end as
they do without it: no bound is used up, and the calls for a token are at most one more than the
tokens that the lexer can deliver. -/
theorem every_run_ends (bytes : List UInt8) (sink : Vm.Sink) :
    (Lexer.ofBytes bytes).drain.1.size ≤ bytes.length ∧
    Lexer.next (Lexer.ofBytes bytes).drain.2 = .ok none (Lexer.ofBytes bytes).drain.2 ∧
    ∀ more : Nat,
      compile (start (Lexer.ofBytes bytes) sink) =
        compileWithin ((Lexer.ofBytes bytes).budget + 2 + more)
          (start (Lexer.ofBytes bytes) sink) ∧
      ∃ calls, calls ≤ (Lexer.ofBytes bytes).tokensLeft + 1 ∧
        (compileWithin ((Lexer.ofBytes bytes).budget + 2 + more) : MeterM Unit)
            { compiler := start (Lexer.ofBytes bytes) sink } =
          withMeter calls 0 (compile (start (Lexer.ofBytes bytes) sink)) := by
  refine ⟨?_, (Lexer.spent_drain _).next_eq, fun more => ?_⟩
  · have hlength := Lexer.length_results_ofBytes bytes
    rwa [Lexer.results, List.length_map, Array.length_toList] at hlength
  · have hleft := Lexer.tokensLeft_le_budget bytes
    -- two bounds are compared with the one that is used: that of the lexer and that of the tokens
    have hbound : (start (Lexer.ofBytes bytes) sink).lexer.budget <
        (Lexer.ofBytes bytes).budget + 2 + more := by
      change (Lexer.ofBytes bytes).budget < _
      omega
    have hpaid : (start (Lexer.ofBytes bytes) sink).lexer.tokensLeft + 1 <
        (Lexer.ofBytes bytes).budget + 2 + more := by
      change (Lexer.ofBytes bytes).tokensLeft + 1 < _
      omega
    rw [compile_eq_compileWithin hbound]
    exact ⟨rfl, exists_calls_of_compileWithin hpaid⟩

end Jack
