/-
What the rules of a body recognise.

Names, expressions and statements: each rule recognises the language of its trees, with one
token of lookahead. The statements say what may stand behind a sentence: behind an expression
no operator, behind a statement no `else`, and behind a block the brace that closes it.

A rule that can nest is given a budget, and it recognises its language on as many tokens as
the budget: each level has moved over a token before the next one begins.
-/
import Jack.Proofs.GrammarLanguages
import Jack.Proofs.Lookahead

set_option autoImplicit false

namespace Jack.Compiler

open Syntax

variable {α β : Type} {bound budget : Nat} {language : Language Token}
  {follow : List Token → Prop} {tokens rest text : List Token} {token : Token}

/-! ## Names and types -/

/-- A rule that takes one token of some kind. -/
theorem recognises_kind (kind : Token → Option α) (wanted : String) {action : CompileM α}
    (hsome : ∀ compiler found, compiler.current.bind kind = some found →
      action compiler = (advance >>= fun _ => pure found) compiler)
    (hnone : ∀ compiler, compiler.current.bind kind = none →
      action compiler = unexpected wanted compiler)
    (hlanguage : ∀ text, text ∈ language ↔ ∃ token, text = [token] ∧ (kind token).isSome)
    (hinhabited : ∃ text, text ∈ language) : Recognises bound language follow action where
  inhabited := hinhabited
  settles := by
    intro compiler tokens hlength hahead
    cases hkind : compiler.current.bind kind with
    | none =>
      rw [hnone compiler hkind]
      refine settles_unexpected hahead hinhabited ?_ wanted
      rintro text htext behind - hhead
      -- a sentence that begins like the tokens ahead would be a token of the kind
      obtain ⟨token, rfl, htoken⟩ := (hlanguage text).1 htext
      rw [hahead.current_eq, ← hhead] at hkind
      rw [show kind token = none from hkind] at htoken
      cases htoken
    | some found =>
      rw [hsome compiler found hkind]
      rw [hahead.current_eq] at hkind
      cases tokens with
      | nil => cases hkind
      | cons token rest =>
        have hsingle : RecognisesFrom token (rest.length + 1) ({[token]} * 1) follow
            (advance >>= fun _ => pure found) := recognisesFrom_advance (recognises_pure found)
        refine hsingle.of_tails ?_ ?_ compiler rest (Nat.le_refl _) hahead
        · intro tail
          rw [hlanguage]
          constructor
          · rintro ⟨_, ⟨⟩, -⟩
            rfl
          · rintro rfl
            exact ⟨token, rfl, by rw [show kind token = some found from hkind, Option.isSome_some]⟩
        · intro text htext
          obtain ⟨_, rfl, -⟩ := (hlanguage text).1 htext
          exact List.cons_ne_nil _ _

/-- The name that a token is. -/
def name? : Token → Option String
  | .identifier name => some name
  | _ => none

/-- A name is one token, and any name will do. -/
theorem recognises_name : Recognises bound names follow name := by
  refine recognises_kind name? "identifier" ?_ ?_ ?_ ⟨_, "name", rfl⟩
  · intro compiler found hfound
    obtain ⟨token, hcurrent, htoken⟩ := Option.bind_eq_some_iff.1 hfound
    cases token <;> cases htoken
    rw [name, look_bind, hcurrent]
    rfl
  · intro compiler hnone
    rw [name, look_bind]
    cases hcurrent : compiler.current with
    | none => rfl
    | some token =>
      rw [hcurrent] at hnone
      cases token with
      | identifier name => cases hnone
      | _ => rfl
  · intro text
    constructor
    · rintro ⟨name, rfl⟩
      exact ⟨_, rfl, rfl⟩
    · rintro ⟨token, rfl, htoken⟩
      cases token with
      | identifier name => exact ⟨name, rfl⟩
      | _ => cases htoken

/-- A type is one token, and any type will do. -/
theorem recognises_type : Recognises bound types follow type := by
  refine recognises_kind typeName? "type" ?_ ?_ ?_ ⟨_, TypeName.int, rfl⟩
  · intro compiler found hfound
    rw [type, look_bind, hfound]
    rfl
  · intro compiler hnone
    rw [type, look_bind, hnone]
    rfl
  · intro text
    constructor
    · rintro ⟨type, rfl⟩
      exact ⟨_, rfl, by cases type <;> rfl⟩
    · rintro ⟨token, rfl, htoken⟩
      unfold typeName? at htoken
      split at htoken
      · exact ⟨.int, rfl⟩
      · exact ⟨.char, rfl⟩
      · exact ⟨.boolean, rfl⟩
      · exact ⟨.named _, rfl⟩
      · cases htoken

/-- A result type is `void` or a type. -/
theorem recognises_returnType : Recognises bound resultTypes follow returnType := by
  rw [resultTypes_eq]
  refine recognises_if (atKeyword_bind .voidKw) ?_ (recognises_type.bind_silent silent_pure) ?_ ?_
  · exact fun compiler rest _ hahead => settles_advance hahead
  · rintro _ rfl behind -
    rfl
  · rintro _ ⟨type, rfl⟩ behind -
    cases type <;> simp [TypeName.token]

/-! ## Expressions -/

/-- The operators of the grammar are the tokens that the compiler takes for one. -/
theorem mem_operators {token : Token} :
    [token] ∈ operators ↔ (binaryOperator? token).isSome := by
  constructor
  · rintro ⟨operator, htoken⟩
    cases htoken
    rw [binaryOperator?_symbol, Option.isSome_some]
  · intro hsome
    obtain ⟨command, hcommand⟩ := Option.isSome_iff_exists.1 hsome
    obtain ⟨operator, rfl, -⟩ := exists_of_binaryOperator? hcommand
    exact ⟨operator, rfl⟩

/-- An operator and what it is applied to begin with the operator. -/
theorem exists_head_of_mem_operation (htext : text ∈ operators * terms) :
    ∃ token rest, text = token :: rest ∧ (binaryOperator? token).isSome := by
  obtain ⟨_, ⟨operator, rfl⟩, operand, -, rfl⟩ := htext
  exact ⟨_, operand, rfl, mem_operators.1 ⟨operator, rfl⟩⟩

theorem cons_mem_operation (htoken : (binaryOperator? token).isSome) {tail : List Token} :
    token :: tail ∈ operators * terms ↔ tail ∈ terms := by
  constructor
  · rintro ⟨_, ⟨operator, rfl⟩, operand, hoperand, heq⟩
    cases heq
    exact hoperand
  · intro htail
    exact ⟨_, mem_operators.2 htoken, tail, htail, rfl⟩

/-- A chain of terms ends where no operator comes next. -/
theorem recognises_chain {term : CompileM Unit} (hterm : Recognises bound terms EndsTerm term)
    (hbudget : bound ≤ budget) :
    Recognises bound expressions EndsExpression (chain term budget) := by
  have hbehind : ∀ text ∈ operations, ∀ behind, EndsExpression behind →
      EndsTerm (text ++ behind) := by
    rintro _ ⟨tree, rfl⟩ behind hends
    exact tree.endsTerm hends
  have hmany : Recognises bound operations EndsExpression
      (many binaryOperator? (fun command => advance >>= fun _ => term >>= fun _ => emit command)
        budget) := by
    -- every round is an operator and a term, and no operator may stand behind the expression
    refine (many_loops _ _).recognises operations_eq (fun _ => exists_head_of_mem_operation) ?_ ?_
      hbehind hbudget ()
    · intro token command hcommand
      have hround : Recognises bound terms EndsTerm (term >>= fun _ => emit command) :=
        hterm.bind_silent fun _ => silent_emit command
      have htails : ∀ tail, token :: tail ∈ operators * terms ↔ tail ∈ terms := fun _ =>
        cons_mem_operation (by rw [hcommand, Option.isSome_some])
      refine ((recognisesFrom_advance hround).mono (Nat.le_succ _)).of_tails htails ?_
      intro text htext
      obtain ⟨_, _, rfl, -⟩ := exists_head_of_mem_operation htext
      exact List.cons_ne_nil _ _
    · intro behind hends token htoken
      have hnone := binaryOperator?_of_endsExpression hends
      rwa [show behind.head? = some token from htoken] at hnone
  rw [expressions_eq]
  exact hterm.bind (fun _ => hmany) hbehind

section

variable {expression : CompileM Unit}
  (hexpression : Recognises bound expressions EndsExpression expression) {closing : Char}
  (hclosing : closing ∈ [')', ']', ',', ';'])

include hexpression hclosing

/-- An expression and the symbol that closes it. Nothing that may go on with the expression can
stand in the place of that symbol. -/
theorem recognises_expression_then {action : CompileM Unit}
    (haction : Recognises bound {[.symbol closing]} follow action) :
    Recognises bound (expressions * {[.symbol closing]}) follow
      (expression >>= fun _ => action) := by
  refine hexpression.bind (fun _ => haction) ?_
  rintro _ rfl behind -
  exact endsExpression_of_closing hclosing behind

/-- An expression in brackets. -/
theorem recognises_expression_between (opening : Char) :
    Recognises (bound + 1) (enclosed opening expressions closing) follow
      (between opening expression closing) :=
  recognises_between hexpression fun rest => endsExpression_of_closing hclosing rest

end

/-- The closing symbol comes next. -/
def Closes (closing : Char) (behind : List Token) : Prop :=
  behind.head? = some (.symbol closing)

theorem Closes.head_ne {closing c : Char} {behind : List Token} (h : Closes closing behind)
    (hne : closing ≠ c) : behind.head? ≠ some (.symbol c) := by
  rw [show behind.head? = some (.symbol closing) from h]
  rintro ⟨⟩
  exact hne rfl

/-- Arguments up to the closing bracket, which tells an empty list from the others. -/
theorem recognises_arguments {expression : CompileM Unit}
    (hexpression : Recognises bound expressions EndsExpression expression)
    (hbudget : bound ≤ budget) :
    Recognises bound argumentLists (Closes ')') (arguments expression budget) := by
  have hbehind : ∀ text ∈ moreArguments, ∀ behind, Closes ')' behind →
      EndsExpression (text ++ behind) := by
    rintro _ ⟨tree, rfl⟩ behind hcloses
    obtain ⟨rest, rfl⟩ := List.head?_eq_some_iff.1 hcloses
    exact tree.endsExpression rest
  have hlist : Recognises bound (expressions * moreArguments) (Closes ')')
      (commaList expression budget) := by
    refine recognises_commaList moreArguments_eq hexpression ?_ hbehind hbudget
    exact fun behind hcloses => hcloses.head_ne (by decide)
  rw [argumentLists_eq]
  refine recognises_if (atSymbol_bind ')') ((recognises_pure 0).at_token _)
    (hlist.bind_silent fun found => silent_pure found.length) ?_ ?_
  · rintro _ rfl behind hcloses
    exact hcloses
  · rintro _ ⟨_, ⟨first, rfl⟩, more, -, rfl⟩ behind -
    rw [List.append_assoc]
    exact first.head_ne_closing (by simp) _

/-- Arguments in brackets. -/
theorem recognises_arguments_between {expression : CompileM Unit}
    (hexpression : Recognises bound expressions EndsExpression expression)
    (hbudget : bound ≤ budget) :
    Recognises (bound + 1) (enclosed '(' argumentLists ')') follow
      (between '(' (arguments expression budget) ')') :=
  recognises_between (recognises_arguments hexpression hbudget) fun _ => rfl

/-- A call goes on behind its first name, with a dot and another name or at once. -/
theorem recognises_callee (first : String) :
    Recognises bound ({[.symbol '.']} * names + 1) (Closes '(') (callee first) := by
  have hbare : Silent (push .pointer 0 >>= fun _ => get >>= fun compiler : Compiler =>
      pure (compiler.className ++ "." ++ first, 1)) :=
    (silent_emit _).bind fun _ => silent_look.bind fun _ => silent_pure _
  refine recognises_if (atSymbol_bind '.') (RecognisesFrom.mono (recognisesFrom_advance
    (recognises_name.bind_silent fun routine => ?_)) (Nat.le_succ _)) hbare.recognises ?_ ?_
  · refine silent_look.bind fun compiler => ?_
    cases compiler.symbols.resolve? first with
    | none => exact silent_pure _
    | some symbol => exact (silent_emit _).bind fun _ => silent_pure _
  · rintro _ ⟨_, rfl, _, -, rfl⟩ behind -
    rfl
  · rintro _ rfl behind hcloses
    exact hcloses.head_ne (by decide)

/-- That there are too many arguments is found when they have all been read. -/
theorem silent_tooManyArguments (callee : String) : Silent
    (lineNumber >>= fun line => throw (.tooManyArguments line callee) : CompileM α) :=
  fun _ => ⟨rfl, rfl, fun _ _ _ hraised => nomatch hraised⟩

/-- A call behind its first name. Whoever is called, the tokens are the same. -/
theorem recognises_subroutineCall {expression : CompileM Unit}
    (hexpression : Recognises bound expressions EndsExpression expression)
    (hbudget : bound ≤ budget) (first : String) :
    Recognises bound callTails follow (subroutineCall expression budget first) := by
  refine (recognises_callee first).bind ?_ ?_
  · rintro ⟨callee, receivers⟩
    have hlist : Recognises (bound + 1) (enclosed '(' argumentLists ')') follow
        (between '(' (arguments expression budget) ')') :=
      recognises_arguments_between hexpression hbudget
    refine (hlist.mono (Nat.le_succ _)).bind_silent fun count => ?_
    split
    · exact silent_emit _
    · exact silent_tooManyArguments callee
  · rintro _ ⟨_, rfl, more, -, rfl⟩ behind -
    rfl

instance : Nonempty Symbol := ⟨⟨"", "", .static, 0⟩⟩

instance : Nonempty Compiler := ⟨.start { lines := [] } {}⟩

/-- A term that begins with a name. What stands behind the name says what the term is. -/
theorem recognisesFrom_namedTerm {expression : CompileM Unit}
    (hexpression : Recognises bound expressions EndsExpression expression)
    (hbudget : bound ≤ budget) (first : String) :
    RecognisesFrom (.identifier first) (bound + 1) ({[.identifier first]} * namedTails) EndsTerm
      (namedTerm expression budget first) := by
  have hread : Silent (lookup first >>= fun symbol => pushVariable symbol) :=
    (silent_lookup first).bind fun _ => silent_emit _
  have hindex : Recognises bound (enclosed '[' expressions ']') EndsTerm
      (between '[' expression ']') :=
    (recognises_expression_between hexpression (by simp) '[').mono (Nat.le_succ _)
  have helement : Recognises bound (enclosed '[' expressions ']') EndsTerm
      (lookup first >>= fun symbol => pushVariable symbol >>= fun _ =>
        between '[' expression ']' >>= fun _ => operation .add >>= fun _ =>
          pop .pointer 1 >>= fun _ => push .that 0) := by
    refine (silent_lookup first).recognises_bind fun symbol => ?_
    refine Silent.recognises_bind (silent_emit _) fun _ => ?_
    refine hindex.bind_silent fun _ => ?_
    exact (silent_emit _).bind fun _ => (silent_emit _).bind fun _ => silent_emit _
  refine recognisesFrom_advance (recognises_choice
    (fun token => token == .symbol '(' || token == .symbol '.') ?_
    (fun token _ => (recognises_subroutineCall hexpression hbudget first).at_token token)
    (recognises_if (atSymbol_bind '[') (helement.at_token _) hread.recognises ?_ ?_) ?_ ?_)
  · intro compiler
    rw [atSymbol_bind, atSymbol_bind]
    cases compiler.current <;> rfl
  · exact fun text htext behind _ => head?_of_mem_enclosed htext behind
  · rintro _ rfl behind hends hhead
    exact (hends _ hhead).2.2 rfl
  · -- a call has one of its two symbols behind the name, and the other terms have not
    rintro _ ⟨_, ⟨_, rfl, _, -, rfl⟩ | rfl, list, hlist, rfl⟩ behind -
    · rfl
    · exact congrArg _ (head?_of_mem_enclosed hlist behind)
  · rintro text (htext | rfl) behind hends
    · rw [head?_of_mem_enclosed htext]
      rfl
    · rw [List.nil_append]
      cases hhead : behind.head? with
      | none => rfl
      | some token =>
        obtain ⟨hparen, hdot, -⟩ := hends token hhead
        simp [hparen, hdot]

/-- What is known of a token holds for the terms that begin with it. -/
theorem recognisesFrom_term {action : CompileM Unit}
    (h : RecognisesFrom token bound ({[token]} * termTails token) EndsTerm action) :
    RecognisesFrom token bound terms EndsTerm action :=
  h.of_tails (fun _ => cons_mem_terms) fun _ => ne_nil_of_mem_terms

/-- A term of one token: what is behind it belongs to something else. -/
theorem recognisesFrom_constant {action : CompileM Unit} (htails : termTails token = 1)
    (h : Silent action) : RecognisesFrom token bound terms EndsTerm (advance >>= fun _ => action) := by
  apply recognisesFrom_term
  rw [htails]
  exact (recognisesFrom_advance h.recognises).mono (Nat.le_succ _)

/-- A unary operator is followed by a term, and it is the term that decides where both end. -/
theorem recognisesFrom_prefix {inner : CompileM Unit} (hinner : Recognises bound terms EndsTerm inner)
    (htails : termTails token = terms) (op : Vm.Operation) :
    RecognisesFrom token (bound + 1) terms EndsTerm
      (advance >>= fun _ => inner >>= fun _ => operation op) := by
  apply recognisesFrom_term
  rw [htails]
  exact recognisesFrom_advance (hinner.bind_silent fun _ => silent_emit _)

/-- There are terms, so what was read of one can be completed. -/
theorem exists_mem_terms : ∃ text, text ∈ terms := ⟨_, Term.integer 0, rfl⟩

/-- Complaining settles that no term begins like the tokens ahead. -/
theorem settles_no_term {compiler : Compiler} (hahead : compiler.Ahead tokens)
    (htokens : ∀ token ∈ tokens.head?, termTails token = 0) :
    Settles terms EndsTerm tokens (unexpected "term" compiler : EStateM.Result _ _ Unit) := by
  refine settles_unexpected hahead exists_mem_terms ?_ _
  intro text htext behind _ hhead
  cases text with
  | nil => exact ne_nil_of_mem_terms htext rfl
  | cons token tail =>
    have htail := cons_mem_terms.1 htext
    rw [htokens token hhead.symm] at htail
    exact Language.notMem_zero tail htail

/-- Inside each level of a term there is one token less. -/
theorem recognises_term (budget : Nat) : Recognises budget terms EndsTerm (term budget) := by
  induction budget with
  | zero =>
    refine ⟨exists_mem_terms, ?_⟩
    intro compiler tokens hlength hahead
    obtain rfl := List.length_eq_zero_iff.1 (Nat.le_zero.1 hlength)
    exact settles_no_term hahead fun _ hmem => nomatch hmem
  | succ budget ih =>
    have hexpression := recognises_chain ih (Nat.le_refl budget)
    refine recognises_of_tokens exists_mem_terms ?_ ?_
    · intro compiler hnone
      rw [term, look_bind, hnone]
      exact settles_no_term hnone fun _ hmem => nomatch hmem
    · intro token
      refine recognisesFrom_look fun compiler hcurrent => ?_
      rw [hcurrent]
      split
      · next heq =>
        cases heq
        exact recognisesFrom_constant rfl (silent_emit _)
      · next heq =>
        cases heq
        exact recognisesFrom_constant rfl (silent_emitAll _)
      · next heq =>
        cases heq
        exact recognisesFrom_constant rfl (silent_emit _)
      · next heq =>
        cases heq
        exact recognisesFrom_constant rfl (silent_emit _)
      · next heq =>
        cases heq
        exact recognisesFrom_constant rfl (silent_emit _)
      · next heq =>
        cases heq
        exact recognisesFrom_constant rfl (silent_emit _)
      · next heq =>
        cases heq
        have hgroup : Recognises (budget + 1) (enclosed '(' expressions ')') EndsTerm _ :=
          recognises_expression_between hexpression (by simp) '('
        exact recognisesFrom_term (hgroup.at_token _)
      · next heq =>
        cases heq
        exact recognisesFrom_prefix ih rfl .neg
      · next heq =>
        cases heq
        exact recognisesFrom_prefix ih rfl .not
      · next first heq =>
        cases heq
        exact recognisesFrom_term (recognisesFrom_namedTerm hexpression (Nat.le_refl budget) first)
      · -- no other token begins a term
        intro reached rest _ hahead
        refine settles_no_term hahead ?_
        rintro _ ⟨⟩
        unfold termTails
        split <;> simp_all

/-- **An expression** is read to the token behind which it cannot go on. -/
theorem recognises_expression (hbound : bound ≤ budget) :
    Recognises bound expressions EndsExpression (expression budget) :=
  (recognises_chain (recognises_term budget) (Nat.le_refl budget)).mono hbound

/-! ## Statements -/

/-- An `else` behind a conditional would belong to it. -/
def NoElse (behind : List Token) : Prop := behind.head? ≠ some (.keyword .elseKw)

/-- From the keyword of its kind, a statement is what the keyword asks for. -/
theorem recognisesFrom_statement {kind : StatementKind} {action : CompileM Unit}
    (hkind : statementKind? token = some kind)
    (h : RecognisesFrom token bound ({[token]} * statementTails kind) NoElse action) :
    RecognisesFrom token bound Syntax.statements NoElse action := by
  refine h.of_tails ?_ ?_
  · intro tail
    rw [cons_mem_statements]
    constructor
    · rintro ⟨found, hfound, htail⟩
      rw [hkind] at hfound
      cases hfound
      exact htail
    · exact fun htail => ⟨kind, hkind, htail⟩
  · intro text htext
    obtain ⟨_, _, rfl, -⟩ := exists_head_of_mem_statements htext
    exact List.cons_ne_nil _ _

/-- What an assignment has behind its target. -/
theorem recognises_assigned {action : CompileM Unit} (hbound : bound ≤ budget)
    (hsilent : Silent action) : Recognises bound assigned follow
      (expectSymbol '=' >>= fun _ => expression budget >>= fun _ => expectSymbol ';' >>= fun _ =>
        action) := by
  have hclosed : Recognises bound {[.symbol ';']} follow
      (expectSymbol ';' >>= fun _ => action) := (recognises_expect _).bind_silent fun _ => hsilent
  have hvalue := recognises_expression_then (recognises_expression hbound) (by simp) hclosed
  exact (recognises_expect_bind hvalue).mono (Nat.le_succ _)

/-- An assignment, to a variable or to an element. -/
theorem recognisesFrom_assignment (hbound : bound ≤ budget) :
    RecognisesFrom token (bound + 1) ({[token]} * statementTails .assignment) follow
      (assignment budget) := by
  have hindex : Recognises bound (enclosed '[' expressions ']') (fun _ => True)
      (defer (between '[' (expression budget) ']')) :=
    ((recognises_expression_between (recognises_expression hbound) (by simp) '[').mono
      (Nat.le_succ _)).defer
  refine recognisesFrom_advance (recognises_name.bind_closed fun target => ?_)
  refine (silent_lookup target).recognises_bind fun symbol => ?_
  refine recognises_if (atSymbol_bind '[') (Recognises.at_token ?_ _)
    (recognises_assigned hbound (silent_emit _)) ?_ ?_
  · refine hindex.bind_closed fun index => recognises_assigned hbound ?_
    refine (silent_emit _).bind fun _ => (silent_emit _).bind fun _ => ?_
    refine (silent_emitAll index).bind fun _ => (silent_emit _).bind fun _ => ?_
    exact (silent_emit _).bind fun _ => (silent_emit _).bind fun _ => silent_emit _
  · rintro _ ⟨_, hbrackets, _, -, rfl⟩ behind -
    rw [List.append_assoc]
    exact head?_of_mem_enclosed hbrackets _
  · rintro _ htext behind -
    obtain ⟨value, rfl⟩ := mem_assigned.1 htext
    simp

/-- The condition of a loop or a conditional. -/
theorem recognises_guard (hbound : bound ≤ budget) :
    Recognises bound (enclosed '(' expressions ')') follow (between '(' (expression budget) ')') :=
  (recognises_expression_between (recognises_expression hbound) (by simp) '(').mono (Nat.le_succ _)

section

variable {block : CompileM Unit} (hblock : Recognises bound blocks (Closes '}') block)

include hblock

/-- A block in braces. -/
theorem recognises_braces :
    Recognises bound (enclosed '{' blocks '}') follow (between '{' block '}') :=
  (recognises_between hblock fun _ => rfl).mono (Nat.le_succ _)

/-- The guard of a loop or a conditional and its first block, with a command in front, two in
between and an action behind. -/
theorem recognises_guarded (hbound : bound ≤ budget) {other : Language Token}
    {followed : List Token → Prop} (start : Vm.Command) {skip : Vm.Command}
    {action : CompileM Unit} (haction : Recognises bound other followed action) :
    Recognises bound (enclosed '(' expressions ')' * (enclosed '{' blocks '}' * other)) followed
      (emit start >>= fun _ => between '(' (expression budget) ')' >>= fun _ =>
        operation .not >>= fun _ => emit skip >>= fun _ => between '{' block '}' >>= fun _ =>
          action) := by
  refine (silent_emit start).recognises_bind fun _ => ?_
  refine (recognises_guard hbound).bind_closed fun _ => ?_
  refine Silent.recognises_bind (silent_emit _) fun _ => (silent_emit skip).recognises_bind fun _ => ?_
  exact (recognises_braces hblock).bind_closed fun _ => haction

/-- A loop: its condition and a block. -/
theorem recognisesFrom_loop (hbound : bound ≤ budget) :
    RecognisesFrom token (bound + 1) ({[token]} * statementTails .loop) follow
      (loop block budget) := by
  refine silent_freshLabel.recognisesFrom_advance fun number => ?_
  have hbehind : Recognises bound 1 follow (emit (.goto ("WHILE_START_" ++ number)) >>= fun _ =>
      emit (.label ("WHILE_END_" ++ number))) :=
    ((silent_emit _).bind fun _ => silent_emit _).recognises
  rw [statementTails, ← mul_one (enclosed '{' blocks '}')]
  exact recognises_guarded hblock hbound _ hbehind

/-- A conditional. Without another block it ends where no `else` follows. -/
theorem recognisesFrom_conditional (hbound : bound ≤ budget) :
    RecognisesFrom token (bound + 1) ({[token]} * statementTails .conditional) NoElse
      (conditional block budget) := by
  refine silent_freshLabel.recognisesFrom_advance fun number => ?_
  have hend : Silent (emit (.label ("IF_END_" ++ number))) := silent_emit _
  have helse : Recognises bound (enclosed '{' blocks '}') NoElse
      (between '{' block '}' >>= fun _ => emit (.label ("IF_END_" ++ number))) :=
    (recognises_braces hblock).bind_silent fun _ => hend
  refine recognises_guarded hblock hbound _ ?_
  refine (silent_emit _).recognises_bind fun _ => (silent_emit _).recognises_bind fun _ => ?_
  refine recognises_if (atKeyword_bind .elseKw)
    ((recognisesFrom_advance helse).mono (Nat.le_succ _)) hend.recognises ?_ ?_
  · rintro _ ⟨_, rfl, _, -, rfl⟩ behind -
    rfl
  · rintro _ rfl behind hbehind
    exact hbehind

end

/-- A call as a statement. -/
theorem recognisesFrom_invocation (hbound : bound ≤ budget) :
    RecognisesFrom token (bound + 1) ({[token]} * statementTails .invocation) follow
      (invocation budget) := by
  have hclosed : Recognises bound {[.symbol ';']} follow
      (expectSymbol ';' >>= fun _ => pop .temp 0) :=
    (recognises_expect _).bind_silent fun _ => silent_emit _
  have hcall (first : String) : Recognises bound callTails (fun _ => True)
      (subroutineCall (expression budget) budget first) :=
    recognises_subroutineCall (recognises_expression hbound) hbound first
  exact recognisesFrom_advance (recognises_name.bind_closed fun first =>
    (hcall first).bind_closed fun _ => hclosed)

/-- A return, with or without an expression. -/
theorem recognisesFrom_exit (hbound : bound ≤ budget) :
    RecognisesFrom token (bound + 1) ({[token]} * statementTails .exit) follow (exit budget) := by
  have hclosed : Recognises bound {[.symbol ';']} follow
      (emit .ret >>= fun _ => expectSymbol ';') :=
    (silent_emit .ret).recognises_bind fun _ => recognises_expect _
  have hvalue := recognises_expression_then (recognises_expression hbound) (by simp) hclosed
  have hnothing : Recognises bound {[.symbol ';']} follow
      (push .constant 0 >>= fun _ => emit .ret >>= fun _ => expectSymbol ';') :=
    (silent_emit _).recognises_bind fun _ => hclosed
  refine recognisesFrom_advance
    (recognises_if (atSymbol_bind ';') (hnothing.at_token _) hvalue ?_ ?_)
  · rintro _ rfl behind -
    rfl
  · rintro _ ⟨_, ⟨value, rfl⟩, _, rfl, rfl⟩ behind -
    rw [List.append_assoc]
    exact value.head_ne_closing (by simp) _

/-- One statement of the kind that its first token says. -/
theorem recognisesFrom_statementKind {block : CompileM Unit} {kind : StatementKind}
    (hblock : Recognises bound blocks (Closes '}') block) (hbound : bound ≤ budget)
    (hkind : statementKind? token = some kind) :
    RecognisesFrom token (bound + 1) Syntax.statements NoElse (statement block budget kind) := by
  apply recognisesFrom_statement hkind
  cases kind with
  | assignment => exact recognisesFrom_assignment hbound
  | conditional => exact recognisesFrom_conditional hblock hbound
  | loop => exact recognisesFrom_loop hblock hbound
  | invocation => exact recognisesFrom_invocation hbound
  | exit => exact recognisesFrom_exit hbound

/-- **Statements** are read to the brace that closes the block. Inside each block there is one
token less. -/
theorem recognises_statements (hbound : bound + 1 ≤ budget) :
    Recognises bound blocks (Closes '}') (statements budget) := by
  induction budget generalizing bound with
  | zero => exact absurd hbound (Nat.not_succ_le_zero _)
  | succ budget ih =>
    have hbudget : bound ≤ budget := Nat.le_of_succ_le_succ hbound
    have hbehind : ∀ text ∈ blocks, ∀ behind, Closes '}' behind → NoElse (text ++ behind) := by
      rintro _ ⟨tree, rfl⟩ behind hcloses
      obtain ⟨rest, rfl⟩ := List.head?_eq_some_iff.1 hcloses
      exact tree.head_ne_else rest
    refine (many_loops _ _).recognises blocks_eq (fun _ => exists_head_of_mem_statements) ?_ ?_
      hbehind hbudget ()
    · intro token kind hkind
      -- a statement moves over its keyword before any block inside it begins
      cases bound with
      | zero => exact fun _ _ hlength => absurd hlength (Nat.not_succ_le_zero _)
      | succ bound => exact recognisesFrom_statementKind (ih hbudget) (Nat.le_of_lt hbudget) hkind
    · intro behind hcloses token htoken
      obtain rfl := Option.some.inj (hcloses.symm.trans htoken)
      rfl

end Jack.Compiler
