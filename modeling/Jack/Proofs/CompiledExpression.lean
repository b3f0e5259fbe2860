/-
Expressions are compiled to the translation of their trees.

If the tokens ahead begin with those of a well-scoped expression, and what comes
behind does not go on with it, then the rule for expressions succeeds, emits the
commands of the tree and stops right behind it. The proof is one induction over
the family of expression trees; each case walks along the steps of the rule for
its constructor.

A budget is enough when it is not below the number of tokens: every step inwards
and every round of a loop moves over a token first.
-/
import Jack.Proofs.Actions

set_option autoImplicit false

namespace Jack.Compiler

open Syntax
open Vm (Command)

/-! ## What the rules need -/

/-- A compiler that knows the variables of a scope and can emit. -/
structure Ready (compiler : Compiler) (scope : Scope) : Prop where
  symbols : compiler.symbols.Represents scope
  className_eq : compiler.className = scope.className
  writer_open : compiler.writer.Open

/-- Walking along keeps a compiler ready. -/
theorem Ready.after {compiler reached : Compiler} {scope : Scope} {commands : List Command}
    {numbers : Nat} {rest : List Token} (hready : compiler.Ready scope)
    (hreached : Reached compiler commands numbers rest reached) : reached.Ready scope where
  symbols := hreached.symbols_eq ▸ hready.symbols
  className_eq := hreached.className_eq.trans hready.className_eq
  writer_open := hreached.writer_open hready.writer_open

/-! ## Operators and names -/

theorem binaryOperator?_symbol (operator : BinaryOperator) :
    binaryOperator? (.symbol operator.symbol) = some operator.command := by
  cases operator <;> rfl

theorem exists_of_binaryOperator? {token : Token} {command : Command}
    (hfound : binaryOperator? token = some command) :
    ∃ operator : BinaryOperator, token = .symbol operator.symbol ∧ command = operator.command := by
  unfold binaryOperator? at hfound
  split at hfound <;> cases hfound
  · exact ⟨.add, rfl, rfl⟩
  · exact ⟨.sub, rfl, rfl⟩
  · exact ⟨.and, rfl, rfl⟩
  · exact ⟨.or, rfl, rfl⟩
  · exact ⟨.lt, rfl, rfl⟩
  · exact ⟨.gt, rfl, rfl⟩
  · exact ⟨.eq, rfl, rfl⟩
  · exact ⟨.multiply, rfl, rfl⟩
  · exact ⟨.divide, rfl, rfl⟩

/-- Behind an expression there is no operator. -/
theorem binaryOperator?_of_endsExpression {rest : List Token} (hends : EndsExpression rest) :
    rest.head?.bind binaryOperator? = none := by
  cases rest with
  | nil => rfl
  | cons token others =>
    cases hfound : binaryOperator? token with
    | none => exact hfound
    | some command =>
      obtain ⟨operator, htoken, _⟩ := exists_of_binaryOperator? hfound
      exact absurd htoken (hends.2 token rfl operator)

/-- A declared name is found. -/
theorem lookup_eq {compiler : Compiler} {scope : Scope} (hready : compiler.Ready scope)
    {name : String} (hdeclared : scope.Declares name) :
    ∃ symbol, scope.resolve? name = some symbol ∧ lookup name compiler = .ok symbol compiler := by
  obtain ⟨symbol, hresolve⟩ := Scope.declares_iff.1 hdeclared
  refine ⟨symbol, hresolve, ?_⟩
  rw [lookup, get_bind, hready.symbols.resolve?_eq, hresolve]
  rfl

/-- Pushing a variable. -/
theorem pushVariable_reached {compiler : Compiler} {scope : Scope} {rest : List Token}
    (hready : compiler.Ready scope) (hahead : compiler.Ahead rest) {name : String}
    {symbol : Symbol} (hresolve : scope.resolve? name = some symbol) :
    ∃ reached, pushVariable symbol compiler = .ok () reached ∧
      Reached compiler (scope.pushName name) 0 rest reached := by
  rw [Scope.pushName, hresolve]
  exact emit_reached hready.writer_open hahead (pushOf symbol)

/-- A token that is worth one command. -/
theorem advance_emit_reached {compiler : Compiler} {token : Token} {rest : List Token}
    (hopen : compiler.writer.Open) (hahead : compiler.Ahead (token :: rest)) (command : Command) :
    ∃ reached, (do advance; emit command) compiler = .ok () reached ∧
      Reached compiler [command] 0 rest reached := by
  obtain ⟨middle, hadvance, hmiddle⟩ := advance_reached hahead
  obtain ⟨reached, hemit, hreached⟩ :=
    emit_reached (hmiddle.writer_open hopen) hmiddle.ahead command
  exact ⟨reached, by rw [bind_ok hadvance, hemit], hmiddle.trans hreached⟩

/-! ## Calls

What a call does before and behind its arguments, given how the arguments go. -/

section Calls

variable {scope : Scope} {expression : CompileM Unit} {budget : Nat} {compiler : Compiler}
  {rest : List Token}

/-- The name in front of a parenthesis is a routine of the class itself. -/
theorem callee_bare_reached (hready : compiler.Ready scope) (routine : String)
    (hahead : compiler.Ahead (.symbol '(' :: rest)) :
    ∃ reached, callee routine compiler = .ok (scope.className ++ "." ++ routine, 1) reached ∧
      Reached compiler [.push .pointer 0] 0 (.symbol '(' :: rest) reached := by
  obtain ⟨reached, hpush, hreached⟩ :=
    emit_reached hready.writer_open hahead (.push .pointer 0)
  refine ⟨reached, ?_, hreached⟩
  rw [callee, atSymbol_bind, hahead.1, if_neg (by simp), push, still_eq, bind_ok hpush,
    look_bind, hreached.className_eq, hready.className_eq]
  rfl

/-- The name in front of a dot is a variable or a class. -/
theorem callee_dotted_reached (hready : compiler.Ready scope) (owner routine : String)
    (hahead : compiler.Ahead (.symbol '.' :: .identifier routine :: rest)) :
    ∃ reached,
      callee owner compiler =
        .ok (((scope.resolve? owner).elim owner Symbol.type) ++ "." ++ routine,
          scope.receivers owner) reached ∧
      Reached compiler (scope.pushName owner) 0 rest reached := by
  obtain ⟨behindDot, hdot, hbehindDot⟩ := advance_reached hahead
  obtain ⟨behindName, hname, hbehindName⟩ := name_reached hbehindDot.ahead
  have hwalk := hbehindDot.trans hbehindName
  have hresolve : behindName.symbols.resolve? owner = scope.resolve? owner :=
    (hready.after hwalk).symbols.resolve?_eq owner
  rw [callee, atSymbol_bind, hahead.1, if_pos (by simp), move_eq, bind_ok hdot, bind_ok hname,
    look_bind, hresolve, Scope.receivers, Scope.pushName]
  cases scope.resolve? owner with
  | none => exact ⟨behindName, rfl, hwalk⟩
  | some symbol =>
    obtain ⟨reached, hpush, hreached⟩ :=
      emit_reached (hready.after hwalk).writer_open hwalk.ahead (pushOf symbol)
    exact ⟨reached, bind_ok hpush, hwalk.trans hreached⟩

/-- A call, given what its callee is and how its arguments go. -/
theorem subroutineCall_reached (first target : String) (receivers count : Nat)
    {receiver argumentCode : List Command} {inner : List Token}
    (hready : compiler.Ready scope)
    (hcallee : ∃ middle, callee first compiler = .ok (target, receivers) middle ∧
      Reached compiler receiver 0 (.symbol '(' :: inner) middle)
    (harguments : ∀ inside : Compiler, inside.Ready scope → inside.Ahead inner → ∃ behind,
      arguments expression budget inside = .ok count behind ∧
        Reached inside argumentCode 0 (.symbol ')' :: rest) behind)
    (hlimit : count + receivers ≤ argumentLimit) :
    ∃ reached, subroutineCall expression budget first compiler = .ok () reached ∧
      Reached compiler (receiver ++ argumentCode ++ [.call target (count + receivers)]) 0 rest
        reached := by
  obtain ⟨middle, hcallee, hmiddle⟩ := hcallee
  have hreadyMiddle := hready.after hmiddle
  obtain ⟨behind, hbetween, hbehind⟩ := between_reached hmiddle.ahead
    (fun inside hinside => harguments inside (hreadyMiddle.after hinside) hinside.ahead)
  obtain ⟨reached, hcall, hreached⟩ :=
    emit_reached (hreadyMiddle.after hbehind).writer_open hbehind.ahead
      (.call target (count + receivers))
  refine ⟨reached, ?_, (hmiddle.trans hbehind).trans hreached⟩
  -- the limit that the rule tests is the limit of the statement
  have hmax : count + receivers ≤ maxArguments := hlimit
  rw [subroutineCall, bind_ok hcallee]
  dsimp only
  rw [bind_ok hbetween, if_pos hmax]
  exact hcall

end Calls

/-! ## Terms that begin with a name -/

section NamedTerms

variable {scope : Scope} {expression : CompileM Unit} {budget : Nat} {compiler : Compiler}
  {rest : List Token}

/-- A name with nothing behind it that belongs to it is a variable. -/
theorem namedTerm_var_reached (hready : compiler.Ready scope) {first : String}
    (hdeclared : scope.Declares first) (hends : EndsTerm rest)
    (hahead : compiler.Ahead (.identifier first :: rest)) :
    ∃ reached, namedTerm expression budget first compiler = .ok () reached ∧
      Reached compiler (scope.pushName first) 0 rest reached := by
  obtain ⟨middle, hadvance, hmiddle⟩ := advance_reached hahead
  have hreadyMiddle := hready.after hmiddle
  obtain ⟨symbol, hresolve, hlookup⟩ := lookup_eq hreadyMiddle hdeclared
  obtain ⟨reached, hpush, hreached⟩ := pushVariable_reached hreadyMiddle hmiddle.ahead hresolve
  have hcurrent := hmiddle.ahead.current_eq
  -- what ends a term is none of the three symbols that would go on with the name
  have hsymbol : ∀ c ∈ ['(', '.', '['], (middle.current == some (.symbol c)) = false := by
    intro c hc
    rw [hcurrent, beq_eq_false_iff_ne]
    intro heq
    obtain ⟨hparen, hdot, hbracket⟩ := hends _ heq
    simp only [List.mem_cons, List.not_mem_nil, or_false] at hc
    rcases hc with rfl | rfl | rfl
    · exact hparen rfl
    · exact hdot rfl
    · exact hbracket rfl
  refine ⟨reached, ?_, hmiddle.trans hreached⟩
  rw [namedTerm, move_eq, bind_ok hadvance, atSymbol_bind, atSymbol_bind, hsymbol '(' (by simp),
    hsymbol '.' (by simp), Bool.or_false, if_neg (by simp), atSymbol_bind, hsymbol '[' (by simp),
    if_neg (by simp), still_eq, bind_ok hlookup, hpush]

/-- A name with a bracket behind it is an array element, given how the index goes. -/
theorem namedTerm_element_reached (hready : compiler.Ready scope) {first : String}
    (hdeclared : scope.Declares first) {indexCode : List Command} {inner : List Token}
    (hahead : compiler.Ahead (.identifier first :: .symbol '[' :: inner))
    (hindex : ∀ inside : Compiler, inside.Ready scope → inside.Ahead inner → ∃ behind,
      expression inside = .ok () behind ∧
        Reached inside indexCode 0 (.symbol ']' :: rest) behind) :
    ∃ reached, namedTerm expression budget first compiler = .ok () reached ∧
      Reached compiler
        (scope.pushName first ++ indexCode ++ [.operation .add, .pop .pointer 1, .push .that 0])
        0 rest reached := by
  obtain ⟨middle, hadvance, hmiddle⟩ := advance_reached hahead
  have hreadyMiddle := hready.after hmiddle
  obtain ⟨symbol, hresolve, hlookup⟩ := lookup_eq hreadyMiddle hdeclared
  obtain ⟨based, hbase, hbased⟩ := pushVariable_reached hreadyMiddle hmiddle.ahead hresolve
  have hreadyBased := hreadyMiddle.after hbased
  obtain ⟨indexed, hbetween, hindexed⟩ := between_reached hbased.ahead
    (fun inside hinside => hindex inside (hreadyBased.after hinside) hinside.ahead)
  have hreadyIndexed := hreadyBased.after hindexed
  obtain ⟨added, hadd, hadded⟩ :=
    emit_reached hreadyIndexed.writer_open hindexed.ahead (.operation .add)
  have hreadyAdded := hreadyIndexed.after hadded
  obtain ⟨pointed, hpop, hpointed⟩ :=
    emit_reached hreadyAdded.writer_open hadded.ahead (.pop .pointer 1)
  obtain ⟨reached, hpush, hreached⟩ :=
    emit_reached (hreadyAdded.after hpointed).writer_open hpointed.ahead (.push .that 0)
  -- the run of the rule, step by step, and then the commands in the order of the steps
  refine ⟨reached, ?_, ?_⟩
  · rw [namedTerm, move_eq, bind_ok hadvance, atSymbol_bind, atSymbol_bind, hmiddle.ahead.1,
      if_neg (by simp), atSymbol_bind, hmiddle.ahead.1, if_pos (by simp), still_eq, bind_ok hlookup,
      bind_ok hbase, bind_ok hbetween, operation, still_eq, bind_ok hadd, pop, still_eq, bind_ok hpop]
    exact hpush
  · simpa using ((((hmiddle.trans hbased).trans hindexed).trans hadded).trans hpointed).trans
      hreached

/-- A name with a parenthesis or a dot behind it is a call. -/
theorem namedTerm_call_reached {first : String} {c : Char} {tail : List Token}
    {commands : List Command} (hc : c = '(' ∨ c = '.')
    (hready : compiler.Ready scope)
    (hahead : compiler.Ahead (.identifier first :: .symbol c :: tail))
    (hcall : ∀ inside : Compiler, inside.Ready scope → inside.Ahead (.symbol c :: tail) →
      ∃ behind, subroutineCall expression budget first inside = .ok () behind ∧
        Reached inside commands 0 rest behind) :
    ∃ reached, namedTerm expression budget first compiler = .ok () reached ∧
      Reached compiler commands 0 rest reached := by
  obtain ⟨middle, hadvance, hmiddle⟩ := advance_reached hahead
  obtain ⟨reached, hrun, hreached⟩ := hcall middle (hready.after hmiddle) hmiddle.ahead
  refine ⟨reached, ?_, by simpa using hmiddle.trans hreached⟩
  rw [namedTerm, move_eq, bind_ok hadvance, atSymbol_bind, atSymbol_bind, hmiddle.ahead.1]
  rcases hc with rfl | rfl
  · rw [if_pos (by simp)]
    exact hrun
  · rw [if_pos (by simp)]
    exact hrun

end NamedTerms

/-! ## Expressions -/

mutual

theorem term_reached (tree : Term) (budget : Nat) {scope : Scope} {compiler : Compiler}
    {rest : List Token} (hready : compiler.Ready scope) (hscoped : tree.Scoped scope)
    (hbudget : tree.tokens.length ≤ budget) (hends : EndsTerm rest)
    (hahead : compiler.Ahead (tree.tokens ++ rest)) :
    ∃ reached, term budget compiler = .ok () reached ∧
      Reached compiler (tree.code scope) 0 rest reached := by
  -- a term has a token, so there is a budget for what is inside it
  have hpositive : 0 < tree.tokens.length := List.length_pos_of_ne_nil tree.tokens_ne_nil
  obtain ⟨depth, rfl⟩ : ∃ depth, budget = depth + 1 := ⟨budget - 1, by omega⟩
  match tree with
  | .integer value =>
    obtain ⟨reached, hrun, hreached⟩ :=
      advance_emit_reached hready.writer_open hahead (.push .constant value)
    refine ⟨reached, ?_, hreached⟩
    rw [term, look_bind, hahead.1]
    exact hrun
  | .string content =>
    obtain ⟨middle, hadvance, hmiddle⟩ := advance_reached hahead
    obtain ⟨reached, hemit, hreached⟩ := emitAll_reached
      (hmiddle.writer_open hready.writer_open) hmiddle.ahead (stringCode content)
    refine ⟨reached, ?_, hmiddle.trans hreached⟩
    rw [term, look_bind, hahead.1]
    exact (bind_ok hadvance).trans hemit
  | .word word =>
    obtain ⟨reached, hrun, hreached⟩ :=
      advance_emit_reached hready.writer_open hahead word.command
    refine ⟨reached, ?_, hreached⟩
    rw [term, look_bind, hahead.1]
    cases word <;> exact hrun
  | .var name =>
    obtain ⟨reached, hrun, hreached⟩ := namedTerm_var_reached hready hscoped hends hahead
    refine ⟨reached, ?_, hreached⟩
    rw [term, look_bind, hahead.1]
    exact hrun
  | .element array index =>
    simp only [Term.tokens, List.length_cons, List.length_append, List.cons_append,
      List.append_assoc] at hbudget hahead
    obtain ⟨reached, hrun, hreached⟩ := namedTerm_element_reached hready hscoped.1 hahead
      (fun inside hinside haheadInside => expression_reached index depth hinside hscoped.2 (by omega)
        (endsExpression_of_closing (by simp) rest) haheadInside)
    refine ⟨reached, ?_, hreached⟩
    rw [term, look_bind, hahead.1]
    exact hrun
  | .call call =>
    obtain ⟨first, c, tail, hc, htokens⟩ := call.exists_tokens_eq
    simp only [Term.tokens, htokens, List.length_cons, List.cons_append] at hbudget hahead
    obtain ⟨reached, hrun, hreached⟩ := namedTerm_call_reached hc hready hahead
      (fun inside hinside haheadInside => call_reached call depth hinside hscoped htokens
        (by simp only [List.length_cons]; omega) haheadInside)
    refine ⟨reached, ?_, hreached⟩
    rw [term, look_bind, hahead.1]
    exact hrun
  | .group inner =>
    simp only [Term.tokens, List.length_cons, List.length_append, List.cons_append,
      List.append_assoc] at hbudget hahead
    obtain ⟨reached, hrun, hreached⟩ := between_reached hahead
      (fun inside hinside => expression_reached inner depth (hready.after hinside) hscoped (by omega)
        (endsExpression_of_closing (by simp) rest) hinside.ahead)
    refine ⟨reached, ?_, hreached⟩
    rw [term, look_bind, hahead.1]
    exact hrun
  | .unary operator operand =>
    simp only [Term.tokens, List.length_cons, List.cons_append] at hbudget hahead
    obtain ⟨middle, hadvance, hmiddle⟩ := advance_reached hahead
    have hreadyMiddle := hready.after hmiddle
    obtain ⟨behind, hoperand, hbehind⟩ :=
      term_reached operand depth hreadyMiddle hscoped (by omega) hends hmiddle.ahead
    obtain ⟨reached, hemit, hreached⟩ := emit_reached (hreadyMiddle.after hbehind).writer_open
      hbehind.ahead operator.command
    refine ⟨reached, ?_, (hmiddle.trans hbehind).trans hreached⟩
    rw [term, look_bind, hahead.1]
    cases operator <;> exact (bind_ok hadvance).trans ((bind_ok hoperand).trans hemit)

theorem expression_reached (tree : Expression) (budget : Nat) {scope : Scope}
    {compiler : Compiler} {rest : List Token} (hready : compiler.Ready scope)
    (hscoped : tree.Scoped scope) (hbudget : tree.tokens.length ≤ budget)
    (hends : EndsExpression rest) (hahead : compiler.Ahead (tree.tokens ++ rest)) :
    ∃ reached, expression budget compiler = .ok () reached ∧
      Reached compiler (tree.code scope) 0 rest reached := by
  match tree with
  | .chain first others =>
    simp only [Expression.tokens, List.length_append, List.append_assoc] at hbudget hahead
    obtain ⟨middle, hfirst, hmiddle⟩ := term_reached first budget hready hscoped.1 (by omega)
      (others.endsTerm hends) hahead
    obtain ⟨reached, hothers, hreached⟩ := operations_reached others budget budget
      (hready.after hmiddle) hscoped.2 (by omega) (by omega) hends hmiddle.ahead
    exact ⟨reached, (bind_ok hfirst).trans hothers, hmiddle.trans hreached⟩

/-- The loop behind the first term; `rounds` bounds how often it is entered. -/
theorem operations_reached (tree : Operations) (budget rounds : Nat) {scope : Scope}
    {compiler : Compiler} {rest : List Token} (hready : compiler.Ready scope)
    (hscoped : tree.Scoped scope) (hbudget : tree.tokens.length ≤ budget)
    (hrounds : tree.tokens.length ≤ rounds) (hends : EndsExpression rest)
    (hahead : compiler.Ahead (tree.tokens ++ rest)) :
    ∃ reached,
      many binaryOperator? (fun command => do advance; term budget; emit command) rounds compiler =
        .ok () reached ∧
      Reached compiler (tree.code scope) 0 rest reached := by
  match tree with
  | .nil =>
    refine ⟨compiler, many_stop ?_ rounds, .refl hahead⟩
    rw [hahead.current_eq]
    exact binaryOperator?_of_endsExpression hends
  | .cons operator operand others =>
    simp only [Operations.tokens, List.length_cons, List.length_append, List.cons_append,
      List.append_assoc] at hbudget hrounds hahead
    -- an operation has tokens, so there is a round left for it
    obtain ⟨round, rfl⟩ : ∃ round, rounds = round + 1 := ⟨rounds - 1, by omega⟩
    obtain ⟨behindOperator, hadvance, hbehindOperator⟩ := advance_reached hahead
    have hreadyOperator := hready.after hbehindOperator
    obtain ⟨behindOperand, hoperand, hbehindOperand⟩ := term_reached operand budget hreadyOperator
      hscoped.1 (by omega) (others.endsTerm hends) hbehindOperator.ahead
    have hreadyOperand := hreadyOperator.after hbehindOperand
    obtain ⟨behindRound, hemit, hbehindRound⟩ := emit_reached hreadyOperand.writer_open
      hbehindOperand.ahead operator.command
    obtain ⟨reached, hothers, hreached⟩ := operations_reached others budget round
      (hreadyOperand.after hbehindRound) hscoped.2 (by omega) (by omega) hends hbehindRound.ahead
    have hhead : compiler.current.bind binaryOperator? = some operator.command := by
      rw [hahead.1, Option.bind_some, binaryOperator?_symbol]
    have hround : (do advance; term budget; emit operator.command) compiler =
        .ok () behindRound := by
      rw [bind_ok hadvance, bind_ok hoperand, hemit]
    refine ⟨reached, ?_, ?_⟩
    · exact (many_step hhead (by exact hround) round).trans hothers
    · simpa [Operations.code] using
        ((hbehindOperator.trans hbehindOperand).trans hbehindRound).trans hreached

/-- A call whose first name has been read. -/
theorem call_reached (tree : Call) (budget : Nat) {scope : Scope} {compiler : Compiler}
    {first : String} {tail rest : List Token} (hready : compiler.Ready scope)
    (hscoped : tree.Scoped scope) (htokens : tree.tokens = .identifier first :: tail)
    (hbudget : tail.length ≤ budget) (hahead : compiler.Ahead (tail ++ rest)) :
    ∃ reached, subroutineCall (expression budget) budget first compiler = .ok () reached ∧
      Reached compiler (tree.code scope) 0 rest reached := by
  match tree with
  | .bare routine arguments =>
    simp only [Call.tokens, List.cons.injEq, Token.identifier.injEq] at htokens
    obtain ⟨rfl, rfl⟩ := htokens
    simp only [List.length_cons, List.length_append, List.cons_append, List.append_assoc]
      at hbudget hahead
    exact subroutineCall_reached routine (scope.className ++ "." ++ routine) 1 arguments.length
      hready (callee_bare_reached hready routine hahead)
      (fun inside hinside haheadInside => arguments_reached arguments budget hinside hscoped.1
        (by omega) haheadInside) hscoped.2
  | .dotted owner routine arguments =>
    simp only [Call.tokens, List.cons.injEq, Token.identifier.injEq] at htokens
    obtain ⟨rfl, rfl⟩ := htokens
    simp only [List.length_cons, List.length_append, List.cons_append, List.append_assoc]
      at hbudget hahead
    obtain ⟨reached, hrun, hreached⟩ := subroutineCall_reached owner _ (scope.receivers owner)
      arguments.length hready (callee_dotted_reached hready owner routine hahead)
      (fun inside hinside haheadInside => arguments_reached arguments budget hinside hscoped.1
        (by omega) haheadInside) hscoped.2
    refine ⟨reached, hrun, ?_⟩
    -- both readings of the owner in one equation
    have hcode : Call.code scope (.dotted owner routine arguments) =
        scope.pushName owner ++ arguments.code scope ++
          [.call ((scope.resolve? owner).elim owner Symbol.type ++ "." ++ routine)
            (arguments.length + scope.receivers owner)] := by
      rw [Call.code, Scope.pushName, Scope.receivers]
      cases scope.resolve? owner <;> rfl
    rw [hcode]
    exact hreached

/-- The arguments up to the parenthesis that closes them. -/
theorem arguments_reached (tree : Arguments) (budget : Nat) {scope : Scope}
    {compiler : Compiler} {rest : List Token} (hready : compiler.Ready scope)
    (hscoped : tree.Scoped scope) (hbudget : tree.tokens.length ≤ budget)
    (hahead : compiler.Ahead (tree.tokens ++ .symbol ')' :: rest)) :
    ∃ reached, arguments (expression budget) budget compiler = .ok tree.length reached ∧
      Reached compiler (tree.code scope) 0 (.symbol ')' :: rest) reached := by
  match tree with
  | .nil =>
    refine ⟨compiler, ?_, .refl hahead⟩
    rw [arguments, atSymbol_bind, hahead.1, if_pos (by simp)]
    rfl
  | .cons first others =>
    simp only [Arguments.tokens, List.length_append, List.append_assoc] at hbudget hahead
    -- an expression does not begin with what closes the list
    have hcurrent : compiler.current ≠ some (.symbol ')') := by
      rw [hahead.current_eq]
      exact first.head_ne_closing (by simp) _
    obtain ⟨middle, hfirst, hmiddle⟩ := expression_reached first budget hready hscoped.1
      (by omega) (others.endsExpression rest) hahead
    obtain ⟨items, reached, hothers, hlength, hreached⟩ := moreArguments_reached others budget
      budget [()] (hready.after hmiddle) hscoped.2 (by omega) (by omega) hmiddle.ahead
    refine ⟨reached, ?_, hmiddle.trans hreached⟩
    rw [arguments, atSymbol_bind, if_neg (by simpa using hcurrent), commaList,
      bind_ok ((bind_ok hfirst).trans hothers), hlength, Arguments.length, List.length_singleton,
      Nat.add_comm]
    rfl

/-- The arguments behind another one. -/
theorem moreArguments_reached (tree : Arguments) (budget rounds : Nat) (found : List Unit)
    {scope : Scope} {compiler : Compiler} {rest : List Token} (hready : compiler.Ready scope)
    (hscoped : tree.Scoped scope) (hbudget : tree.moreTokens.length ≤ budget)
    (hrounds : tree.moreTokens.length ≤ rounds)
    (hahead : compiler.Ahead (tree.moreTokens ++ .symbol ')' :: rest)) :
    ∃ items reached,
      commaListFrom (expression budget) found rounds compiler = .ok items reached ∧
      items.length = found.length + tree.length ∧
      Reached compiler (tree.code scope) 0 (.symbol ')' :: rest) reached := by
  match tree with
  | .nil =>
    refine ⟨found.reverse, compiler, commaListFrom_stop found ?_ rounds, by
      rw [List.length_reverse, Arguments.length, Nat.add_zero], .refl hahead⟩
    rw [hahead.1]
    simp
  | .cons first others =>
    simp only [Arguments.moreTokens, List.length_cons, List.length_append, List.cons_append,
      List.append_assoc] at hbudget hrounds hahead
    -- the comma is one of the tokens that the rounds are enough for
    obtain ⟨round, rfl⟩ : ∃ round, rounds = round + 1 := ⟨rounds - 1, by omega⟩
    obtain ⟨behindComma, hcomma, hbehindComma⟩ := advance_reached hahead
    have hreadyComma := hready.after hbehindComma
    obtain ⟨middle, hfirst, hmiddle⟩ := expression_reached first budget hreadyComma hscoped.1
      (by omega) (others.endsExpression rest) hbehindComma.ahead
    obtain ⟨items, reached, hothers, hlength, hreached⟩ := moreArguments_reached others budget
      round (() :: found) (hreadyComma.after hmiddle) hscoped.2 (by omega) (by omega) hmiddle.ahead
    refine ⟨items, reached, ?_, ?_, ?_⟩
    · rw [commaListFrom_step found hahead.1 hcomma hfirst, hothers]
    · rw [hlength, List.length_cons, Arguments.length]
      omega
    · simpa [Arguments.code] using (hbehindComma.trans hmiddle).trans hreached

end

end Jack.Compiler
