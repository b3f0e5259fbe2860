/-
What the rules for expressions and statements accept.

The converse of the walk along a tree. From a run of a rule that succeeded a tree
is read off: its tokens are those that the run moved over, and it is well scoped
in the scope that the symbol table represents. Nothing has to be said about what
comes behind, nor about budgets. A rule that stopped early has read less, and
what it did read is still a tree.

Terms nest in each other, so the induction is on the budget of `term`; everything
between two terms is read given that the term inside is.
-/
import Jack.Proofs.CompiledStatement

set_option autoImplicit false

namespace Jack.Compiler

open Syntax
open Vm (Command)

/-- Walking along keeps what is known of the names. -/
theorem Consumed.represents {compiler reached : Compiler} {tokens : List Token} {scope : Scope}
    (h : Consumed compiler tokens reached) (hsymbols : compiler.symbols.Represents scope) :
    reached.symbols.Represents scope := h.symbols_eq ▸ hsymbols

/-- A name that is found is declared. -/
theorem lookup_ok {compiler reached : Compiler} {scope : Scope} {name : String} {symbol : Symbol}
    (hsymbols : compiler.symbols.Represents scope)
    (hrun : lookup name compiler = .ok symbol reached) :
    reached = compiler ∧ scope.Declares name := by
  obtain ⟨action, haction, hrun⟩ := get_bind_ok hrun
  split at haction <;> subst haction
  · next found hfound =>
    cases hrun
    rw [hsymbols.resolve?_eq] at hfound
    exact ⟨rfl, Scope.declares_iff.2 ⟨_, hfound⟩⟩
  · cases hrun

/-! ## Rules that read trees -/

/-- A rule whose successful runs read a term. -/
def ReadsTerm (scope : Scope) (rule : CompileM Unit) : Prop :=
  ∀ compiler reached, compiler.symbols.Represents scope → rule compiler = .ok () reached →
    ∃ tree : Term, Consumed compiler tree.tokens reached ∧ tree.Scoped scope

/-- A rule whose successful runs read an expression. -/
def ReadsExpression (scope : Scope) (rule : CompileM Unit) : Prop :=
  ∀ compiler reached, compiler.symbols.Represents scope → rule compiler = .ok () reached →
    ∃ tree : Expression, Consumed compiler tree.tokens reached ∧ tree.Scoped scope

/-- A rule whose successful runs read the statements of a block. -/
def ReadsBlock (scope : Scope) (rule : CompileM Unit) : Prop :=
  ∀ compiler reached, compiler.symbols.Represents scope → rule compiler = .ok () reached →
    ∃ tree : Block, Consumed compiler tree.tokens reached ∧ tree.Scoped scope

section Expressions

variable {scope : Scope} {rule : CompileM Unit} {budget : Nat} {compiler reached : Compiler}

/-- An expression between two symbols. -/
theorem ReadsExpression.between (hrule : ReadsExpression scope rule) {opening closing : Char}
    (hsymbols : compiler.symbols.Represents scope)
    (hrun : between opening rule closing compiler = .ok () reached) :
    ∃ tree : Expression,
      Consumed compiler (.symbol opening :: (tree.tokens ++ [.symbol closing])) reached ∧
        tree.Scoped scope := by
  obtain ⟨inside, behind, hopening, hinner, hclosing⟩ := between_ok_iff.1 hrun
  have hreadOpening := expect_consumed hopening
  obtain ⟨tree, hread, hscoped⟩ :=
    hrule inside behind (hreadOpening.represents hsymbols) hinner
  refine ⟨tree, ?_, hscoped⟩
  simpa using (hreadOpening.trans hread).trans (expect_consumed hclosing)

/-- The loop behind the first term of an expression. -/
theorem operations_consumed (hterm : ReadsTerm scope rule) {rounds : Nat}
    (hsymbols : compiler.symbols.Represents scope)
    (hrun : many binaryOperator? (fun command => do advance; rule; emit command) rounds compiler =
      .ok () reached) :
    ∃ tree : Operations, Consumed compiler tree.tokens reached ∧ tree.Scoped scope := by
  -- the rounds are used up or no operator comes: either way no more operations were read
  induction rounds generalizing compiler with
  | zero =>
    cases hrun
    exact ⟨.nil, .refl _, trivial⟩
  | succ _ ih =>
    rcases many_ok_cases hrun with rfl | ⟨round, command, middle, hround, hhead, hrule, hrest⟩
    · exact ⟨.nil, .refl _, trivial⟩
    obtain rfl := Nat.succ.inj hround
    obtain ⟨token, hcurrent, hfound⟩ := Option.bind_eq_some_iff.1 hhead
    obtain ⟨operator, rfl, -⟩ := exists_of_binaryOperator? hfound
    obtain ⟨_, behindOperator, hadvance, hrule⟩ := bind_ok_iff.1 hrule
    obtain ⟨_, behindOperand, hoperand, hemit⟩ := bind_ok_iff.1 hrule
    have hreadOperator := advance_consumed hcurrent hadvance
    obtain ⟨operand, hreadOperand, hoperandScoped⟩ :=
      hterm _ _ (hreadOperator.represents hsymbols) hoperand
    have hreadRound := (hreadOperator.trans hreadOperand).trans (emit_consumed hemit)
    obtain ⟨others, hreadOthers, hothersScoped⟩ := ih (hreadRound.represents hsymbols) hrest
    refine ⟨.cons operator operand others, ?_, hoperandScoped, hothersScoped⟩
    simpa [Operations.tokens] using hreadRound.trans hreadOthers

theorem ReadsTerm.chain (hterm : ReadsTerm scope rule) (budget : Nat) :
    ReadsExpression scope (chain rule budget) := by
  intro compiler reached hsymbols hrun
  obtain ⟨_, middle, hfirst, hothers⟩ := bind_ok_iff.1 hrun
  obtain ⟨first, hreadFirst, hfirstScoped⟩ := hterm _ _ hsymbols hfirst
  obtain ⟨others, hreadOthers, hothersScoped⟩ :=
    operations_consumed hterm (hreadFirst.represents hsymbols) hothers
  exact ⟨.chain first others, hreadFirst.trans hreadOthers, hfirstScoped, hothersScoped⟩

/-! ## Calls -/

/-- The arguments behind another one. -/
theorem moreArguments_consumed (hrule : ReadsExpression scope rule) {rounds : Nat}
    {found items : List Unit} (hsymbols : compiler.symbols.Represents scope)
    (hrun : commaListFrom rule found rounds compiler = .ok items reached) :
    ∃ tree : Arguments, Consumed compiler tree.moreTokens reached ∧ tree.Scoped scope ∧
      items.length = found.length + tree.length := by
  -- what was found before only counts: the new arguments add to its length
  induction rounds generalizing compiler found with
  | zero =>
    cases hrun
    exact ⟨.nil, .refl _, trivial, List.length_reverse⟩
  | succ _ ih =>
    rcases commaListFrom_ok_cases hrun with
      ⟨rfl, rfl⟩ | ⟨round, behindComma, value, middle, hround, hreadComma, hitem, hrest⟩
    · exact ⟨.nil, .refl _, trivial, List.length_reverse⟩
    obtain rfl := Nat.succ.inj hround
    obtain ⟨first, hreadFirst, hfirstScoped⟩ :=
      hrule _ _ (hreadComma.represents hsymbols) hitem
    have hreadItem := hreadComma.trans hreadFirst
    obtain ⟨others, hreadOthers, hothersScoped, hlength⟩ :=
      ih (hreadItem.represents hsymbols) hrest
    refine ⟨.cons first others, ?_, ⟨hfirstScoped, hothersScoped⟩, ?_⟩
    · simpa [Arguments.moreTokens] using hreadItem.trans hreadOthers
    · rw [hlength, List.length_cons, Arguments.length]
      omega

theorem arguments_consumed (hrule : ReadsExpression scope rule) {count : Nat}
    (hsymbols : compiler.symbols.Represents scope)
    (hrun : arguments rule budget compiler = .ok count reached) :
    ∃ tree : Arguments, Consumed compiler tree.tokens reached ∧ tree.Scoped scope ∧
      count = tree.length := by
  rw [arguments, atSymbol_bind] at hrun
  split at hrun
  · cases hrun
    exact ⟨.nil, .refl _, trivial, rfl⟩
  · obtain ⟨items, last, hlist, hpure⟩ := bind_ok_iff.1 hrun
    cases hpure
    obtain ⟨_, middle, hfirst, hothers⟩ := bind_ok_iff.1 hlist
    obtain ⟨first, hreadFirst, hfirstScoped⟩ := hrule _ _ hsymbols hfirst
    obtain ⟨others, hreadOthers, hothersScoped, hlength⟩ :=
      moreArguments_consumed hrule (hreadFirst.represents hsymbols) hothers
    refine ⟨.cons first others, hreadFirst.trans hreadOthers, ⟨hfirstScoped, hothersScoped⟩, ?_⟩
    rw [hlength, List.length_singleton, Arguments.length, Nat.add_comm]

/-- What stands between the first name of a call and its parenthesis. -/
theorem callee_consumed {first target : String} {receivers : Nat}
    (hsymbols : compiler.symbols.Represents scope)
    (hrun : callee first compiler = .ok (target, receivers) reached) :
    (∃ routine, Consumed compiler [.symbol '.', .identifier routine] reached ∧
      receivers = scope.receivers first) ∨ Consumed compiler [] reached ∧ receivers = 1 := by
  rw [callee, atSymbol_bind] at hrun
  split at hrun
  · next hcurrent =>
    obtain ⟨_, behindDot, hdot, hrun⟩ := bind_ok_iff.1 hrun
    obtain ⟨routine, behindName, hname, hrun⟩ := bind_ok_iff.1 hrun
    have hread := (advance_consumed (by simpa using hcurrent) hdot).trans (name_consumed hname)
    obtain ⟨action, haction, hrun⟩ := get_bind_ok hrun
    rw [(hread.represents hsymbols).resolve?_eq] at haction
    -- the symbol table decides whether the name before the dot is a receiver
    refine .inl ⟨routine, ?_⟩
    split at haction <;> subst haction
    · next symbol hresolve =>
      obtain ⟨_, middle, hpush, hpure⟩ := bind_ok_iff.1 hrun
      cases hpure
      refine ⟨by simpa using hread.trans (emit_consumed hpush), ?_⟩
      rw [Scope.receivers, hresolve]
      rfl
    · next hresolve =>
      cases hrun
      refine ⟨hread, ?_⟩
      rw [Scope.receivers, hresolve]
      rfl
  · obtain ⟨_, middle, hpush, hrun⟩ := bind_ok_iff.1 hrun
    rw [look_bind] at hrun
    cases hrun
    exact .inr ⟨emit_consumed hpush, rfl⟩

/-- A call whose first name has been read. -/
theorem subroutineCall_consumed (hrule : ReadsExpression scope rule) {first : String}
    (hsymbols : compiler.symbols.Represents scope)
    (hrun : subroutineCall rule budget first compiler = .ok () reached) :
    ∃ (tree : Call) (tail : List Token), tree.tokens = .identifier first :: tail ∧
      Consumed compiler tail reached ∧ tree.Scoped scope := by
  obtain ⟨⟨target, receivers⟩, middle, hcallee, hrun⟩ := bind_ok_iff.1 hrun
  obtain ⟨count, behind, hbetween, hrun⟩ := bind_ok_iff.1 hrun
  obtain ⟨inside, last, hopening, harguments, hclosing⟩ := between_ok_iff.1 hbetween
  split at hrun
  · next hlimit =>
    have hcalleeRead := callee_consumed hsymbols hcallee
    -- neither form of the callee changes the symbols
    have hmiddle : middle.symbols.Represents scope := by
      rcases hcalleeRead with ⟨routine, hread, -⟩ | ⟨hread, -⟩
      · exact hread.represents hsymbols
      · exact hread.represents hsymbols
    have hreadOpening := expect_consumed hopening
    obtain ⟨list, hreadList, hlistScoped, rfl⟩ :=
      arguments_consumed hrule (hreadOpening.represents hmiddle) harguments
    have hreadRest := ((hreadOpening.trans hreadList).trans (expect_consumed hclosing)).trans
      (emit_consumed hrun)
    rcases hcalleeRead with ⟨routine, hread, rfl⟩ | ⟨hread, rfl⟩
    · refine ⟨.dotted first routine list, _, rfl, ?_, hlistScoped, hlimit⟩
      simpa using hread.trans hreadRest
    · refine ⟨.bare first list, _, rfl, ?_, hlistScoped, hlimit⟩
      simpa using hread.trans hreadRest
  · cases hrun

/-! ## Terms -/

theorem namedTerm_consumed (hrule : ReadsExpression scope rule) {first : String}
    (hsymbols : compiler.symbols.Represents scope)
    (hcurrent : compiler.current = some (.identifier first))
    (hrun : namedTerm rule budget first compiler = .ok () reached) :
    ∃ tree : Term, Consumed compiler tree.tokens reached ∧ tree.Scoped scope := by
  obtain ⟨_, middle, hadvance, hrun⟩ := bind_ok_iff.1 hrun
  have hreadName := advance_consumed hcurrent hadvance
  have hmiddle := hreadName.represents hsymbols
  rw [atSymbol_bind, atSymbol_bind] at hrun
  -- a parenthesis or a dot makes it a call, a bracket an element
  split at hrun
  · obtain ⟨call, tail, htokens, hreadTail, hscoped⟩ := subroutineCall_consumed hrule hmiddle hrun
    refine ⟨.call call, ?_, hscoped⟩
    rw [Term.tokens, htokens]
    exact hreadName.trans hreadTail
  · rw [atSymbol_bind] at hrun
    split at hrun
    · obtain ⟨symbol, looked, hlookup, hread⟩ := bind_ok_iff.1 hrun
      obtain ⟨rfl, hdeclared⟩ := lookup_ok hmiddle hlookup
      obtain ⟨_, based, hbase, hread⟩ := bind_ok_iff.1 hread
      obtain ⟨_, indexed, hindex, hread⟩ := bind_ok_iff.1 hread
      obtain ⟨_, added, hadd, hread⟩ := bind_ok_iff.1 hread
      obtain ⟨_, pointed, hpop, hpush⟩ := bind_ok_iff.1 hread
      have hreadBase := hreadName.trans (emit_consumed hbase)
      obtain ⟨index, hreadIndex, hscoped⟩ :=
        hrule.between (hreadBase.represents hsymbols) hindex
      refine ⟨.element first index, ?_, hdeclared, hscoped⟩
      simpa [Term.tokens] using (((hreadBase.trans hreadIndex).trans (emit_consumed hadd)).trans
        (emit_consumed hpop)).trans (emit_consumed hpush)
    · obtain ⟨symbol, looked, hlookup, hpush⟩ := bind_ok_iff.1 hrun
      obtain ⟨rfl, hdeclared⟩ := lookup_ok hmiddle hlookup
      exact ⟨.var first, by simpa [Term.tokens] using hreadName.trans (emit_consumed hpush),
        hdeclared⟩

/-- A constant: a token and commands for it. -/
theorem constant_consumed {token : Token} {commands : CompileM Unit} (tree : Term)
    (htokens : tree.tokens = [token]) (hscoped : tree.Scoped scope)
    (hcurrent : compiler.current = some token)
    (hcommands : ∀ middle last, commands middle = .ok () last → Consumed middle [] last)
    (hrun : (do advance; commands) compiler = .ok () reached) :
    ∃ tree : Term, Consumed compiler tree.tokens reached ∧ tree.Scoped scope := by
  obtain ⟨_, middle, hadvance, hemit⟩ := bind_ok_iff.1 hrun
  refine ⟨tree, ?_, hscoped⟩
  rw [htokens]
  exact (advance_consumed hcurrent hadvance).trans (hcommands _ _ hemit)

/-- A term behind a unary operator. -/
theorem unary_consumed (hterm : ReadsTerm scope rule) (operator : UnaryOperator)
    {command : Command} (hsymbols : compiler.symbols.Represents scope)
    (hcurrent : compiler.current = some (.symbol operator.symbol))
    (hrun : (do advance; rule; emit command) compiler = .ok () reached) :
    ∃ tree : Term, Consumed compiler tree.tokens reached ∧ tree.Scoped scope := by
  obtain ⟨_, middle, hadvance, hrun⟩ := bind_ok_iff.1 hrun
  obtain ⟨_, behind, hoperand, hemit⟩ := bind_ok_iff.1 hrun
  have hreadOperator := advance_consumed hcurrent hadvance
  obtain ⟨operand, hreadOperand, hscoped⟩ :=
    hterm _ _ (hreadOperator.represents hsymbols) hoperand
  refine ⟨.unary operator operand, ?_, hscoped⟩
  simpa [Term.tokens] using (hreadOperator.trans hreadOperand).trans (emit_consumed hemit)

end Expressions

/-- Successful runs of `term` read terms. -/
theorem term_reads (scope : Scope) (budget : Nat) : ReadsTerm scope (term budget) := by
  -- each level of nesting costs one of the budget, and no budget means an error
  induction budget with
  | zero =>
    intro compiler reached hsymbols hrun
    exact absurd hrun unexpected_ne_ok
  | succ budget hterm =>
    have hrule := hterm.chain budget
    intro compiler reached hsymbols hrun
    rw [term] at hrun
    obtain ⟨action, haction, hrun⟩ := get_bind_ok hrun
    split at haction <;> subst haction
    · next value hcurrent =>
      exact constant_consumed (.integer value) rfl trivial hcurrent (fun _ _ => emit_consumed) hrun
    · next content hcurrent =>
      exact constant_consumed (.string content) rfl trivial hcurrent
        (fun _ _ => emitAll_consumed) hrun
    · next hcurrent =>
      exact constant_consumed (.word .true) rfl trivial hcurrent (fun _ _ => emit_consumed) hrun
    · next hcurrent =>
      exact constant_consumed (.word .false) rfl trivial hcurrent (fun _ _ => emit_consumed) hrun
    · next hcurrent =>
      exact constant_consumed (.word .null) rfl trivial hcurrent (fun _ _ => emit_consumed) hrun
    · next hcurrent =>
      exact constant_consumed (.word .this) rfl trivial hcurrent (fun _ _ => emit_consumed) hrun
    · next hcurrent =>
      obtain ⟨inner, hread, hscoped⟩ := hrule.between hsymbols hrun
      exact ⟨.group inner, hread, hscoped⟩
    · next hcurrent => exact unary_consumed hterm .negate hsymbols hcurrent hrun
    · next hcurrent => exact unary_consumed hterm .complement hsymbols hcurrent hrun
    · next first hcurrent => exact namedTerm_consumed hrule hsymbols hcurrent hrun
    · exact absurd hrun unexpected_ne_ok

/-- Successful runs of `expression` read expressions. -/
theorem expression_reads (scope : Scope) (budget : Nat) :
    ReadsExpression scope (expression budget) :=
  (term_reads scope budget).chain budget

/-! ## Statements

Each rule, given that the blocks inside it are read. -/

section Statements

variable {scope : Scope} {rule : CompileM Unit} {budget : Nat} {compiler reached : Compiler}

/-- A block between its braces. -/
theorem ReadsBlock.between (hrule : ReadsBlock scope rule)
    (hsymbols : compiler.symbols.Represents scope)
    (hrun : between '{' rule '}' compiler = .ok () reached) :
    ∃ tree : Block, Consumed compiler (.symbol '{' :: (tree.tokens ++ [.symbol '}'])) reached ∧
      tree.Scoped scope := by
  obtain ⟨inside, behind, hopening, hinner, hclosing⟩ := between_ok_iff.1 hrun
  have hreadOpening := expect_consumed hopening
  obtain ⟨tree, hread, hscoped⟩ :=
    hrule inside behind (hreadOpening.represents hsymbols) hinner
  refine ⟨tree, ?_, hscoped⟩
  simpa using (hreadOpening.trans hread).trans (expect_consumed hclosing)

/-- The value and the semicolon of an assignment, and the commands behind them. -/
theorem assigned_consumed {commands : CompileM Unit}
    (hcommands : ∀ middle last, commands middle = .ok () last → Consumed middle [] last)
    (hsymbols : compiler.symbols.Represents scope)
    (hrun : (do expectSymbol '='; expression budget; expectSymbol ';'; commands) compiler =
      .ok () reached) :
    ∃ value : Expression,
      Consumed compiler (.symbol '=' :: (value.tokens ++ [.symbol ';'])) reached ∧
        value.Scoped scope := by
  obtain ⟨_, equal, hequal, hrun⟩ := bind_ok_iff.1 hrun
  obtain ⟨_, evaluated, hvalue, hrun⟩ := bind_ok_iff.1 hrun
  obtain ⟨_, ended, hsemicolon, hrun⟩ := bind_ok_iff.1 hrun
  have hreadEqual := expect_consumed hequal
  obtain ⟨value, hreadValue, hscoped⟩ :=
    expression_reads scope budget _ _ (hreadEqual.represents hsymbols) hvalue
  refine ⟨value, ?_, hscoped⟩
  simpa using ((hreadEqual.trans hreadValue).trans (expect_consumed hsemicolon)).trans
    (hcommands _ _ hrun)

/-- The commands behind an assignment to an array element. -/
theorem stored_consumed {target : Symbol} {index : List Command}
    (hrun : (do
      pop .temp 0
      pushVariable target
      emitAll index
      operation .add
      pop .pointer 1
      push .temp 0
      pop .that 0 : CompileM Unit) compiler = .ok () reached) : Consumed compiler [] reached := by
  obtain ⟨_, parked, hpark, hrun⟩ := bind_ok_iff.1 hrun
  obtain ⟨_, based, hbase, hrun⟩ := bind_ok_iff.1 hrun
  obtain ⟨_, indexed, hindex, hrun⟩ := bind_ok_iff.1 hrun
  obtain ⟨_, added, hadd, hrun⟩ := bind_ok_iff.1 hrun
  obtain ⟨_, pointed, hpoint, hrun⟩ := bind_ok_iff.1 hrun
  obtain ⟨_, fetched, hfetch, hstore⟩ := bind_ok_iff.1 hrun
  exact (((((emit_consumed hpark).trans (emit_consumed hbase)).trans (emitAll_consumed hindex)).trans
    (emit_consumed hadd)).trans (emit_consumed hpoint)).trans
    ((emit_consumed hfetch).trans (emit_consumed hstore))

theorem assignment_consumed (hsymbols : compiler.symbols.Represents scope)
    (hcurrent : compiler.current = some (.keyword .letKw))
    (hrun : assignment budget compiler = .ok () reached) :
    ∃ tree : Statement, Consumed compiler tree.tokens reached ∧ tree.Scoped scope := by
  obtain ⟨_, behindLet, hlet, hrun⟩ := bind_ok_iff.1 hrun
  obtain ⟨target, named, hname, hrun⟩ := bind_ok_iff.1 hrun
  obtain ⟨symbol, looked, hlookup, hrest⟩ := bind_ok_iff.1 hrun
  have hreadName := (advance_consumed hcurrent hlet).trans (name_consumed hname)
  have hnamed := hreadName.represents hsymbols
  obtain ⟨rfl, hdeclared⟩ := lookup_ok hnamed hlookup
  -- the commands of an index are captured, but its tokens are read on the spot
  rw [atSymbol_bind] at hrest
  split at hrest
  · obtain ⟨captured, indexed, hdefer, hrest⟩ := bind_ok_iff.1 hrest
    obtain ⟨inside, behind, hinside, hbetween, hbehind⟩ := defer_ok hdefer
    obtain ⟨index, hreadIndex, hindexScoped⟩ :=
      (expression_reads scope budget).between (hinside.represents hnamed) hbetween
    have hread := hreadName.trans ((hinside.trans hreadIndex).trans hbehind)
    obtain ⟨value, hreadValue, hscoped⟩ :=
      assigned_consumed (fun _ _ => stored_consumed) (hread.represents hsymbols) hrest
    refine ⟨.store target index value, ?_, hdeclared, hindexScoped, hscoped⟩
    simpa [Statement.tokens] using hread.trans hreadValue
  · obtain ⟨value, hreadValue, hscoped⟩ :=
      assigned_consumed (fun _ _ => emit_consumed) hnamed hrest
    refine ⟨.assign target value, ?_, hdeclared, hscoped⟩
    simpa [Statement.tokens] using hreadName.trans hreadValue

/-- The start of a conditional or loop, up to the jump over its block. -/
theorem guard_consumed {keyword : Keyword} {first skip : String} {next : CompileM Unit}
    (hsymbols : compiler.symbols.Represents scope)
    (hcurrent : compiler.current = some (.keyword keyword))
    (hrun : (do
      advance
      emit (.label first)
      between '(' (expression budget) ')'
      operation .not
      emit (.ifGoto skip)
      next : CompileM Unit) compiler = .ok () reached) :
    ∃ (condition : Expression) (middle : Compiler),
      Consumed compiler
        (.keyword keyword :: .symbol '(' :: (condition.tokens ++ [.symbol ')'])) middle ∧
      condition.Scoped scope ∧ next middle = .ok () reached := by
  obtain ⟨_, moved, hmove, hrun⟩ := bind_ok_iff.1 hrun
  obtain ⟨_, labelled, hlabel, hrun⟩ := bind_ok_iff.1 hrun
  obtain ⟨_, tested, htest, hrun⟩ := bind_ok_iff.1 hrun
  obtain ⟨_, negated, hnot, hrun⟩ := bind_ok_iff.1 hrun
  obtain ⟨_, middle, hjump, hrun⟩ := bind_ok_iff.1 hrun
  -- labels, the negation and the jump are emitted and read nothing
  have hreadStart := (advance_consumed hcurrent hmove).trans (emit_consumed hlabel)
  obtain ⟨condition, hreadCondition, hscoped⟩ :=
    (expression_reads scope budget).between (hreadStart.represents hsymbols) htest
  refine ⟨condition, middle, ?_, hscoped, hrun⟩
  simpa using ((hreadStart.trans hreadCondition).trans (emit_consumed hnot)).trans
    (emit_consumed hjump)

/-- Taking a number for labels. -/
theorem freshLabel_bind_ok {next : String → CompileM Unit}
    (hrun : (freshLabel >>= next) compiler = .ok () reached) :
    ∃ middle, Consumed compiler [] middle ∧ middle.current = compiler.current ∧
      next (toString compiler.labels) middle = .ok () reached :=
  ⟨{ compiler with labels := compiler.labels + 1 }, .of_still rfl rfl rfl rfl, rfl, hrun⟩

theorem loop_consumed (hblock : ReadsBlock scope rule)
    (hsymbols : compiler.symbols.Represents scope)
    (hcurrent : compiler.current = some (.keyword .whileKw))
    (hrun : loop rule budget compiler = .ok () reached) :
    ∃ tree : Statement, Consumed compiler tree.tokens reached ∧ tree.Scoped scope := by
  obtain ⟨numbered, hfresh, hsame, hrun⟩ := freshLabel_bind_ok hrun
  obtain ⟨condition, guarded, hreadGuard, hscoped, hrun⟩ :=
    guard_consumed (hfresh.represents hsymbols) (hsame.trans hcurrent) hrun
  obtain ⟨_, repeated, hbody, hrun⟩ := bind_ok_iff.1 hrun
  obtain ⟨_, back, hback, hend⟩ := bind_ok_iff.1 hrun
  have hread := hfresh.trans hreadGuard
  obtain ⟨body, hreadBody, hbodyScoped⟩ := hblock.between (hread.represents hsymbols) hbody
  refine ⟨.loop condition body, ?_, hscoped, hbodyScoped⟩
  simpa [Statement.tokens] using ((hread.trans hreadBody).trans (emit_consumed hback)).trans
    (emit_consumed hend)

theorem conditional_consumed (hblock : ReadsBlock scope rule)
    (hsymbols : compiler.symbols.Represents scope)
    (hcurrent : compiler.current = some (.keyword .ifKw))
    (hrun : conditional rule budget compiler = .ok () reached) :
    ∃ tree : Statement, Consumed compiler tree.tokens reached ∧ tree.Scoped scope := by
  obtain ⟨numbered, hfresh, hsame, hrun⟩ := freshLabel_bind_ok hrun
  obtain ⟨condition, guarded, hreadGuard, hscoped, hrun⟩ :=
    guard_consumed (hfresh.represents hsymbols) (hsame.trans hcurrent) hrun
  obtain ⟨_, done, hthen, hrun⟩ := bind_ok_iff.1 hrun
  obtain ⟨_, jumped, hover, hrun⟩ := bind_ok_iff.1 hrun
  obtain ⟨_, middle, hother, hrun⟩ := bind_ok_iff.1 hrun
  have hread := hfresh.trans hreadGuard
  obtain ⟨block, hreadBlock, hblockScoped⟩ := hblock.between (hread.represents hsymbols) hthen
  have hreadThen := ((hread.trans hreadBlock).trans (emit_consumed hover)).trans
    (emit_consumed hother)
  -- one token decides between the two forms, as it did for the compiler
  rw [atKeyword_bind] at hrun
  split at hrun
  · next helse =>
    obtain ⟨_, behindElse, hmove, hrun⟩ := bind_ok_iff.1 hrun
    obtain ⟨_, closed, hotherwise, hend⟩ := bind_ok_iff.1 hrun
    have hreadElse := hreadThen.trans (advance_consumed (by simpa using helse) hmove)
    obtain ⟨otherwise, hreadOther, hotherScoped⟩ :=
      hblock.between (hreadElse.represents hsymbols) hotherwise
    refine ⟨.ifElse condition block otherwise, ?_, hscoped, hblockScoped, hotherScoped⟩
    simpa [Statement.tokens] using (hreadElse.trans hreadOther).trans (emit_consumed hend)
  · refine ⟨.ifThen condition block, ?_, hscoped, hblockScoped⟩
    simpa [Statement.tokens] using hreadThen.trans (emit_consumed hrun)

theorem invocation_consumed (hsymbols : compiler.symbols.Represents scope)
    (hcurrent : compiler.current = some (.keyword .doKw))
    (hrun : invocation budget compiler = .ok () reached) :
    ∃ tree : Statement, Consumed compiler tree.tokens reached ∧ tree.Scoped scope := by
  obtain ⟨_, behindDo, hdo, hrun⟩ := bind_ok_iff.1 hrun
  obtain ⟨first, named, hname, hrun⟩ := bind_ok_iff.1 hrun
  obtain ⟨_, called, hcall, hrun⟩ := bind_ok_iff.1 hrun
  obtain ⟨_, ended, hsemicolon, hdrop⟩ := bind_ok_iff.1 hrun
  have hreadDo := advance_consumed hcurrent hdo
  have hreadName := hreadDo.trans (name_consumed hname)
  obtain ⟨call, tail, htokens, hreadTail, hscoped⟩ :=
    subroutineCall_consumed (expression_reads scope budget) (hreadName.represents hsymbols) hcall
  refine ⟨.invoke call, ?_, hscoped⟩
  simpa [Statement.tokens, htokens] using ((hreadName.trans hreadTail).trans
    (expect_consumed hsemicolon)).trans (emit_consumed hdrop)

theorem exit_consumed (hsymbols : compiler.symbols.Represents scope)
    (hcurrent : compiler.current = some (.keyword .returnKw))
    (hrun : exit budget compiler = .ok () reached) :
    ∃ tree : Statement, Consumed compiler tree.tokens reached ∧ tree.Scoped scope := by
  obtain ⟨_, behindReturn, hreturn, hrun⟩ := bind_ok_iff.1 hrun
  have hreadReturn := advance_consumed hcurrent hreturn
  rw [atSymbol_bind] at hrun
  split at hrun
  · obtain ⟨_, pushed, hpush, hrun⟩ := bind_ok_iff.1 hrun
    obtain ⟨_, left, hleave, hsemicolon⟩ := bind_ok_iff.1 hrun
    refine ⟨.exit none, ?_, trivial⟩
    simpa [Statement.tokens] using ((hreadReturn.trans (emit_consumed hpush)).trans
      (emit_consumed hleave)).trans (expect_consumed hsemicolon)
  · obtain ⟨_, evaluated, hvalue, hrun⟩ := bind_ok_iff.1 hrun
    obtain ⟨_, left, hleave, hsemicolon⟩ := bind_ok_iff.1 hrun
    obtain ⟨value, hreadValue, hscoped⟩ :=
      expression_reads scope budget _ _ (hreadReturn.represents hsymbols) hvalue
    refine ⟨.exit (some value), ?_, hscoped⟩
    simpa [Statement.tokens] using ((hreadReturn.trans hreadValue).trans
      (emit_consumed hleave)).trans (expect_consumed hsemicolon)

/-- A statement, from the token that tells its kind. -/
theorem statement_consumed (hblock : ReadsBlock scope rule) {kind : StatementKind}
    (hsymbols : compiler.symbols.Represents scope)
    (hhead : compiler.current.bind statementKind? = some kind)
    (hrun : statement rule budget kind compiler = .ok () reached) :
    ∃ tree : Statement, Consumed compiler tree.tokens reached ∧ tree.Scoped scope := by
  obtain ⟨token, hcurrent, hkind⟩ := Option.bind_eq_some_iff.1 hhead
  unfold statementKind? at hkind
  split at hkind <;> cases hkind
  · exact assignment_consumed hsymbols hcurrent hrun
  · exact conditional_consumed hblock hsymbols hcurrent hrun
  · exact loop_consumed hblock hsymbols hcurrent hrun
  · exact invocation_consumed hsymbols hcurrent hrun
  · exact exit_consumed hsymbols hcurrent hrun

end Statements

/-- Successful runs of `statements` read blocks. -/
theorem statements_reads (scope : Scope) (budget : Nat) : ReadsBlock scope (statements budget) := by
  induction budget with
  | zero =>
    intro compiler reached hsymbols hrun
    exact absurd hrun unexpected_ne_ok
  | succ budget hblock =>
    -- one block deep, the loop reads a statement in each round
    have hrounds : ∀ rounds compiler reached, compiler.symbols.Represents scope →
        many statementKind? (statement (statements budget) budget) rounds compiler =
          .ok () reached →
        ∃ tree : Block, Consumed compiler tree.tokens reached ∧ tree.Scoped scope := by
      intro rounds
      induction rounds with
      | zero =>
        intro compiler reached hsymbols hrun
        cases hrun
        exact ⟨.nil, .refl _, trivial⟩
      | succ _ ih =>
        intro compiler reached hsymbols hrun
        rcases many_ok_cases hrun with rfl | ⟨round, kind, middle, hround, hhead, hrule, hrest⟩
        · exact ⟨.nil, .refl _, trivial⟩
        obtain rfl := Nat.succ.inj hround
        obtain ⟨first, hreadFirst, hfirstScoped⟩ :=
          statement_consumed hblock hsymbols hhead hrule
        obtain ⟨others, hreadOthers, hothersScoped⟩ :=
          ih _ _ (hreadFirst.represents hsymbols) hrest
        exact ⟨.cons first others, hreadFirst.trans hreadOthers, hfirstScoped, hothersScoped⟩
    exact hrounds budget

end Jack.Compiler
