/-
The grammar is unambiguous.

A token list is the tokens of at most one class tree. For a rule in the middle of
a source this has to be said with what comes behind: two trees of a rule that
begin the same token list are equal and leave the same rest, if what they leave
cannot go on with the rule. `EndsTerm` and `EndsExpression` say so for terms and
expressions, the absence of an `else` for statements; every other rule has an end
of its own.
-/
import Jack.Proofs.CompiledStatement

set_option autoImplicit false

namespace Jack.Syntax

/-! ## Operators and words -/

/-- Each unary operator has a symbol of its own. The minus is also that of a binary operator, but no
place in the grammar has room for both. -/
theorem UnaryOperator.symbol_inj {first second : UnaryOperator}
    (hsymbol : first.symbol = second.symbol) : first = second := by
  cases first <;> cases second <;> first | rfl | exact absurd hsymbol (by decide)

/-- Each binary operator has a symbol of its own. -/
theorem BinaryOperator.symbol_inj {first second : BinaryOperator}
    (hsymbol : first.symbol = second.symbol) : first = second := by
  cases first <;> cases second <;> first | rfl | exact absurd hsymbol (by decide)

/-- No unary operator looks like the bracket of a group, so the first token of a term says which of
the two it is. -/
theorem UnaryOperator.symbol_ne_paren (operator : UnaryOperator) : operator.symbol ≠ '(' := by
  cases operator <;> decide

/-- Each constant word has a keyword of its own. -/
theorem ConstantWord.keyword_inj {first second : ConstantWord}
    (hkeyword : first.keyword = second.keyword) : first = second := by
  cases first <;> cases second <;> first | rfl | exact absurd hkeyword (by decide)

/-! ## Expressions -/

/-- Behind an expression no operator follows. -/
theorem EndsExpression.head_ne {rest : List Token} (hends : EndsExpression rest)
    (operator : BinaryOperator) (tail : List Token) :
    rest ≠ .symbol operator.symbol :: tail := by
  rintro rfl
  exact hends.2 _ rfl operator rfl

/-- What ends a term is not one of the symbols that make a name more than a variable. -/
theorem EndsTerm.head_ne {rest : List Token} (hends : EndsTerm rest) {c : Char}
    (hc : c ∈ ['(', '.', '[']) (tail : List Token) : rest ≠ .symbol c :: tail := by
  rintro rfl
  obtain ⟨hparen, hdot, hbracket⟩ := hends _ rfl
  simp only [List.mem_cons, List.not_mem_nil, or_false] at hc
  rcases hc with rfl | rfl | rfl
  · exact hparen rfl
  · exact hdot rfl
  · exact hbracket rfl

mutual

/-- Two terms that begin the same tokens are equal. What is behind a name decides whether it is a
variable, an element or a call, so what follows the term must not be able to do so. -/
theorem Term.tokens_append_inj (tree other : Term) {rest behind : List Token}
    (hrest : EndsTerm rest) (hbehind : EndsTerm behind)
    (heq : tree.tokens ++ rest = other.tokens ++ behind) : tree = other ∧ rest = behind := by
  match tree with
  | .integer value =>
    rcases other with _ | _ | _ | _ | _ | (_ | _) | _ | _ <;>
      simp_all [Term.tokens, Call.tokens]
  | .string content =>
    rcases other with _ | _ | _ | _ | _ | (_ | _) | _ | _ <;>
      simp_all [Term.tokens, Call.tokens]
  | .word constant =>
    rcases other with _ | _ | other | _ | _ | (_ | _) | _ | _ <;>
      simp only [Term.tokens, Call.tokens, List.cons_append, List.nil_append, List.cons.injEq,
        Token.keyword.injEq, reduceCtorEq, false_and] at heq
    obtain ⟨hkeyword, rfl⟩ := heq
    exact ⟨congrArg _ (ConstantWord.keyword_inj hkeyword), rfl⟩
  | .var name =>
    -- elements and calls also begin with a name, but go on with a symbol that ends no term
    rcases other with _ | _ | _ | _ | _ | (_ | _) | _ | _ <;>
      simp only [Term.tokens, Call.tokens, List.cons_append, List.nil_append, List.cons.injEq,
        Token.identifier.injEq, reduceCtorEq, false_and] at heq
    · obtain ⟨rfl, rfl⟩ := heq
      exact ⟨rfl, rfl⟩
    · exact absurd heq.2 (hrest.head_ne (by simp) _)
    · exact absurd heq.2 (hrest.head_ne (by simp) _)
    · exact absurd heq.2 (hrest.head_ne (by simp) _)
  | .element array index =>
    -- only a variable is left to be confused with: all others have another second token
    rcases other with _ | _ | _ | _ | ⟨array', index'⟩ | (_ | _) | _ | _ <;>
      simp only [Term.tokens, Call.tokens, List.cons_append, List.nil_append, List.append_assoc,
        List.cons.injEq, Token.identifier.injEq, Token.symbol.injEq, reduceCtorEq, false_and,
        and_false, true_and, Char.reduceEq] at heq
    · exact absurd heq.2.symm (hbehind.head_ne (by simp) _)
    · obtain ⟨rfl, hindex⟩ := heq
      obtain ⟨rfl, hclosing⟩ := Expression.tokens_append_inj index index'
        (endsExpression_of_closing (by simp) _) (endsExpression_of_closing (by simp) _) hindex
      exact ⟨rfl, List.tail_eq_of_cons_eq hclosing⟩
  | .call invoked =>
    rcases other with _ | _ | _ | name | _ | invoked' | _ | _
    case call =>
      obtain ⟨rfl, hclosing⟩ := Call.tokens_append_inj invoked invoked' heq
      exact ⟨rfl, hclosing⟩
    all_goals
      -- the symbol behind the name tells a call from a variable and from an element
      obtain ⟨first, c, tail, hc, htokens⟩ := invoked.exists_tokens_eq
      simp only [Term.tokens, htokens, List.cons_append, List.nil_append, List.cons.injEq,
        Token.symbol.injEq, reduceCtorEq, false_and] at heq
    · exact absurd heq.2.symm (hbehind.head_ne (by rcases hc with rfl | rfl <;> simp) _)
    · obtain ⟨-, rfl, -⟩ := heq
      simp at hc
  | .group inner =>
    rcases other with _ | _ | _ | _ | _ | (_ | _) | inner' | ⟨operator', _⟩ <;>
      simp only [Term.tokens, Call.tokens, List.cons_append, List.nil_append, List.append_assoc,
        List.cons.injEq, Token.symbol.injEq, reduceCtorEq, false_and, true_and] at heq
    · obtain ⟨rfl, hclosing⟩ := Expression.tokens_append_inj inner inner'
        (endsExpression_of_closing (by simp) _) (endsExpression_of_closing (by simp) _) heq
      exact ⟨rfl, List.tail_eq_of_cons_eq hclosing⟩
    · exact absurd heq.1.symm operator'.symbol_ne_paren
  | .unary operator operand =>
    rcases other with _ | _ | _ | _ | _ | (_ | _) | _ | ⟨operator', operand'⟩ <;>
      simp only [Term.tokens, Call.tokens, List.cons_append, List.nil_append, List.append_assoc,
        List.cons.injEq, Token.symbol.injEq, reduceCtorEq, false_and] at heq
    · exact absurd heq.1 operator.symbol_ne_paren
    -- the operand ends where the whole term ends
    · obtain ⟨hsymbol, hoperand⟩ := heq
      obtain rfl := UnaryOperator.symbol_inj hsymbol
      obtain ⟨rfl, rfl⟩ := Term.tokens_append_inj operand operand' hrest hbehind hoperand
      exact ⟨rfl, rfl⟩

/-- Two expressions that begin the same tokens are equal. Between the first term and the operators
there is nothing to confuse: an operator ends a term. -/
theorem Expression.tokens_append_inj (tree other : Expression) {rest behind : List Token}
    (hrest : EndsExpression rest) (hbehind : EndsExpression behind)
    (heq : tree.tokens ++ rest = other.tokens ++ behind) : tree = other ∧ rest = behind := by
  match tree with
  | .chain first others =>
    obtain ⟨first', others'⟩ := other
    rw [Expression.tokens, Expression.tokens, List.append_assoc, List.append_assoc] at heq
    obtain ⟨rfl, hothers⟩ := Term.tokens_append_inj first first' (others.endsTerm hrest)
      (others'.endsTerm hbehind) heq
    obtain ⟨rfl, rfl⟩ := Operations.tokens_append_inj others others' hrest hbehind hothers
    exact ⟨rfl, rfl⟩

/-- Two chains of operators that begin the same tokens are equal. A chain that ends where the other
one goes on would be followed by an operator. -/
theorem Operations.tokens_append_inj (tree other : Operations) {rest behind : List Token}
    (hrest : EndsExpression rest) (hbehind : EndsExpression behind)
    (heq : tree.tokens ++ rest = other.tokens ++ behind) : tree = other ∧ rest = behind := by
  match tree with
  | .nil =>
    cases other with
    | nil => exact ⟨rfl, heq⟩
    | cons operator operand others => exact absurd heq (hrest.head_ne operator _)
  | .cons operator operand others =>
    rcases other with _ | ⟨operator', operand', others'⟩
    · exact absurd heq.symm (hbehind.head_ne operator _)
    · simp only [Operations.tokens, List.cons_append, List.append_assoc, List.cons.injEq,
        Token.symbol.injEq] at heq
      obtain ⟨hsymbol, hoperand⟩ := heq
      obtain rfl := BinaryOperator.symbol_inj hsymbol
      obtain ⟨rfl, hothers⟩ := Term.tokens_append_inj operand operand' (others.endsTerm hrest)
        (others'.endsTerm hbehind) hoperand
      obtain ⟨rfl, rfl⟩ := Operations.tokens_append_inj others others' hrest hbehind hothers
      exact ⟨rfl, rfl⟩

/-- Two calls that begin the same tokens are equal, whatever is behind them: a call has a closing
bracket of its own. -/
theorem Call.tokens_append_inj (tree other : Call) {rest behind : List Token}
    (heq : tree.tokens ++ rest = other.tokens ++ behind) : tree = other ∧ rest = behind := by
  match tree with
  | .bare routine list =>
    rcases other with ⟨routine', list'⟩ | _ <;>
      simp only [Call.tokens, List.cons_append, List.append_assoc, List.nil_append,
        List.cons.injEq, Token.identifier.injEq, Token.symbol.injEq, Char.reduceEq, false_and,
        and_false, true_and] at heq
    obtain ⟨rfl, hlist⟩ := heq
    obtain ⟨rfl, hclosing⟩ := Arguments.tokens_append_inj list list' hlist
    exact ⟨rfl, hclosing⟩
  | .dotted owner routine list =>
    rcases other with _ | ⟨owner', routine', list'⟩ <;>
      simp only [Call.tokens, List.cons_append, List.append_assoc, List.nil_append,
        List.cons.injEq, Token.identifier.injEq, Token.symbol.injEq, Char.reduceEq, false_and,
        and_false, true_and] at heq
    obtain ⟨rfl, rfl, hlist⟩ := heq
    obtain ⟨rfl, hclosing⟩ := Arguments.tokens_append_inj list list' hlist
    exact ⟨rfl, hclosing⟩

/-- Two lists of arguments up to the closing bracket are equal. An empty list differs from the
others because no expression begins with that bracket. -/
theorem Arguments.tokens_append_inj (tree other : Arguments) {rest behind : List Token}
    (heq : tree.tokens ++ .symbol ')' :: rest = other.tokens ++ .symbol ')' :: behind) :
    tree = other ∧ rest = behind := by
  match tree with
  | .nil =>
    rcases other with _ | ⟨first', others'⟩
    · exact ⟨rfl, List.tail_eq_of_cons_eq heq⟩
    · rw [Arguments.tokens, Arguments.tokens, List.append_assoc] at heq
      exact absurd (congrArg List.head? heq).symm (first'.head_ne_closing (by simp) _)
  | .cons first others =>
    rcases other with _ | ⟨first', others'⟩
    · rw [Arguments.tokens, Arguments.tokens, List.append_assoc] at heq
      exact absurd (congrArg List.head? heq) (first.head_ne_closing (by simp) _)
    · rw [Arguments.tokens, Arguments.tokens, List.append_assoc, List.append_assoc] at heq
      obtain ⟨rfl, hothers⟩ := Expression.tokens_append_inj first first'
        (others.endsExpression rest) (others'.endsExpression behind) heq
      obtain ⟨rfl, hclosing⟩ := Arguments.moreTokens_append_inj others others' hothers
      exact ⟨rfl, hclosing⟩

/-- Further arguments up to the closing bracket. A comma or the bracket tells at each of them
whether there is one more. -/
theorem Arguments.moreTokens_append_inj (tree other : Arguments) {rest behind : List Token}
    (heq : tree.moreTokens ++ .symbol ')' :: rest = other.moreTokens ++ .symbol ')' :: behind) :
    tree = other ∧ rest = behind := by
  match tree with
  | .nil =>
    rcases other with _ | ⟨first', others'⟩
    · exact ⟨rfl, List.tail_eq_of_cons_eq heq⟩
    · simp [Arguments.moreTokens] at heq
  | .cons first others =>
    rcases other with _ | ⟨first', others'⟩
    · simp [Arguments.moreTokens] at heq
    · simp only [Arguments.moreTokens, List.cons_append, List.append_assoc, List.cons.injEq,
        true_and] at heq
      obtain ⟨rfl, hothers⟩ := Expression.tokens_append_inj first first'
        (others.endsExpression rest) (others'.endsExpression behind) heq
      obtain ⟨rfl, hclosing⟩ := Arguments.moreTokens_append_inj others others' hothers
      exact ⟨rfl, hclosing⟩

end

/-- An expression up to the symbol that closes it. -/
theorem Expression.tokens_closed_inj {tree other : Expression} {closing : Char}
    (hclosing : closing ∈ [')', ']', ',', ';']) {rest behind : List Token}
    (heq : tree.tokens ++ .symbol closing :: rest = other.tokens ++ .symbol closing :: behind) :
    tree = other ∧ rest = behind := by
  obtain ⟨htree, hcons⟩ := Expression.tokens_append_inj tree other
    (endsExpression_of_closing hclosing rest) (endsExpression_of_closing hclosing behind) heq
  exact ⟨htree, List.tail_eq_of_cons_eq hcons⟩

/-! ## Statements -/

mutual

/-- Two statements that begin the same tokens are equal, unless an `else` is behind one of them: it
would belong to a conditional without one. -/
theorem Statement.tokens_append_inj (tree other : Statement) {rest behind : List Token}
    (hrest : rest.head? ≠ some (.keyword .elseKw))
    (hbehind : behind.head? ≠ some (.keyword .elseKw))
    (heq : tree.tokens ++ rest = other.tokens ++ behind) : tree = other ∧ rest = behind := by
  match tree with
  | .assign target value =>
    rcases other with ⟨target', value'⟩ | _ | _ | _ | _ | _ | (_ | _) <;>
      simp only [Statement.tokens, List.cons_append, List.append_assoc, List.nil_append,
        List.cons.injEq, Token.keyword.injEq, Token.identifier.injEq, Token.symbol.injEq,
        reduceCtorEq, Char.reduceEq, false_and, and_false, true_and] at heq
    obtain ⟨rfl, hvalue⟩ := heq
    obtain ⟨rfl, hclosing⟩ := Expression.tokens_closed_inj (by simp) hvalue
    exact ⟨rfl, hclosing⟩
  | .store target index value =>
    rcases other with _ | ⟨target', index', value'⟩ | _ | _ | _ | _ | (_ | _) <;>
      simp only [Statement.tokens, List.cons_append, List.append_assoc, List.nil_append,
        List.cons.injEq, Token.keyword.injEq, Token.identifier.injEq, Token.symbol.injEq,
        reduceCtorEq, Char.reduceEq, false_and, and_false, true_and] at heq
    obtain ⟨rfl, hindex⟩ := heq
    obtain ⟨rfl, hassigned⟩ := Expression.tokens_closed_inj (by simp) hindex
    simp only [List.cons.injEq, true_and] at hassigned
    obtain ⟨rfl, hclosing⟩ := Expression.tokens_closed_inj (by simp) hassigned
    exact ⟨rfl, hclosing⟩
  | .ifThen condition block =>
    rcases other with _ | _ | ⟨condition', block'⟩ | ⟨condition', block', otherwise'⟩ | _ | _ |
        (_ | _) <;>
      simp only [Statement.tokens, List.cons_append, List.append_assoc, List.nil_append,
        List.cons.injEq, Token.keyword.injEq, reduceCtorEq, false_and, true_and] at heq
    · obtain ⟨rfl, hthen⟩ := Expression.tokens_closed_inj (by simp) heq
      simp only [List.cons.injEq, true_and] at hthen
      obtain ⟨rfl, hclosing⟩ := Block.tokens_append_inj block block' hthen
      exact ⟨rfl, hclosing⟩
    · obtain ⟨rfl, hthen⟩ := Expression.tokens_closed_inj (by simp) heq
      simp only [List.cons.injEq, true_and] at hthen
      obtain ⟨rfl, hclosing⟩ := Block.tokens_append_inj block block' hthen
      -- an `else` behind the block would belong to the conditional
      rw [hclosing] at hrest
      exact absurd rfl hrest
  | .ifElse condition block otherwise =>
    rcases other with _ | _ | ⟨condition', block'⟩ | ⟨condition', block', otherwise'⟩ | _ | _ |
        (_ | _) <;>
      simp only [Statement.tokens, List.cons_append, List.append_assoc, List.nil_append,
        List.cons.injEq, Token.keyword.injEq, reduceCtorEq, false_and, true_and] at heq
    · obtain ⟨rfl, hthen⟩ := Expression.tokens_closed_inj (by simp) heq
      simp only [List.cons.injEq, true_and] at hthen
      obtain ⟨rfl, hclosing⟩ := Block.tokens_append_inj block block' hthen
      rw [← hclosing] at hbehind
      exact absurd rfl hbehind
    · obtain ⟨rfl, hthen⟩ := Expression.tokens_closed_inj (by simp) heq
      simp only [List.cons.injEq, true_and] at hthen
      obtain ⟨rfl, helse⟩ := Block.tokens_append_inj block block' hthen
      simp only [List.cons.injEq, true_and] at helse
      obtain ⟨rfl, hclosing⟩ := Block.tokens_append_inj otherwise otherwise' helse
      exact ⟨rfl, hclosing⟩
  | .loop condition body =>
    rcases other with _ | _ | _ | _ | ⟨condition', body'⟩ | _ | (_ | _) <;>
      simp only [Statement.tokens, List.cons_append, List.append_assoc, List.nil_append,
        List.cons.injEq, Token.keyword.injEq, reduceCtorEq, false_and, true_and] at heq
    obtain ⟨rfl, hbody⟩ := Expression.tokens_closed_inj (by simp) heq
    simp only [List.cons.injEq, true_and] at hbody
    obtain ⟨rfl, hclosing⟩ := Block.tokens_append_inj body body' hbody
    exact ⟨rfl, hclosing⟩
  | .invoke call =>
    rcases other with _ | _ | _ | _ | _ | call' | (_ | _) <;>
      simp only [Statement.tokens, List.cons_append, List.append_assoc, List.nil_append,
        List.cons.injEq, Token.keyword.injEq, reduceCtorEq, false_and, true_and] at heq
    obtain ⟨rfl, hclosing⟩ := Call.tokens_append_inj call call' heq
    exact ⟨rfl, List.tail_eq_of_cons_eq hclosing⟩
  | .exit none =>
    rcases other with _ | _ | _ | _ | _ | _ | (_ | value') <;>
      simp only [Statement.tokens, List.cons_append, List.append_assoc, List.nil_append,
        List.cons.injEq, Token.keyword.injEq, reduceCtorEq, false_and, true_and] at heq
    · exact ⟨rfl, heq⟩
    · exact absurd (congrArg List.head? heq).symm (value'.head_ne_closing (by simp) _)
  | .exit (some value) =>
    rcases other with _ | _ | _ | _ | _ | _ | (_ | value') <;>
      simp only [Statement.tokens, List.cons_append, List.append_assoc, List.nil_append,
        List.cons.injEq, Token.keyword.injEq, reduceCtorEq, false_and, true_and] at heq
    · exact absurd (congrArg List.head? heq) (value.head_ne_closing (by simp) _)
    · obtain ⟨rfl, hclosing⟩ := Expression.tokens_closed_inj (by simp) heq
      exact ⟨rfl, hclosing⟩

/-- Two blocks up to the closing brace are equal. Every statement begins with a keyword and the
brace is none, so both blocks end at the same place. -/
theorem Block.tokens_append_inj (tree other : Block) {rest behind : List Token}
    (heq : tree.tokens ++ .symbol '}' :: rest = other.tokens ++ .symbol '}' :: behind) :
    tree = other ∧ rest = behind := by
  match tree with
  | .nil =>
    rcases other with _ | ⟨first', others'⟩
    · exact ⟨rfl, List.tail_eq_of_cons_eq heq⟩
    · obtain ⟨keyword, tail, htokens, -⟩ := first'.exists_tokens_eq
      simp [Block.tokens, htokens] at heq
  | .cons first others =>
    rcases other with _ | ⟨first', others'⟩
    · obtain ⟨keyword, tail, htokens, -⟩ := first.exists_tokens_eq
      simp [Block.tokens, htokens] at heq
    · rw [Block.tokens, Block.tokens, List.append_assoc, List.append_assoc] at heq
      obtain ⟨rfl, hothers⟩ := Statement.tokens_append_inj first first'
        (others.head_ne_else rest) (others'.head_ne_else behind) heq
      obtain ⟨rfl, hclosing⟩ := Block.tokens_append_inj others others' hothers
      exact ⟨rfl, hclosing⟩

end

/-! ## Declarations -/

/-- A type is written as one token, and keywords are no names of classes. -/
theorem TypeName.token_inj {first second : TypeName} (htoken : first.token = second.token) :
    first = second := by
  cases first <;> cases second <;> simp_all [TypeName.token]

/-- A result is written as one token, too: `void` is a keyword, so it is not the name of a class. -/
theorem resultToken_inj {first second : Option TypeName}
    (htoken : resultToken first = resultToken second) : first = second := by
  cases first with
  | none =>
    cases second with
    | none => rfl
    | some second => cases second <;> simp [resultToken, TypeName.token] at htoken
  | some first =>
    cases second with
    | none => cases first <;> simp [resultToken, TypeName.token] at htoken
    | some second => exact congrArg some (TypeName.token_inj htoken)

/-- Rows of items, up to a token that begins none. -/
theorem flatMap_append_inj {β : Type} {tokensOf : β → List Token}
    (hitem : ∀ item other rest behind, tokensOf item ++ rest = tokensOf other ++ behind →
      item = other ∧ rest = behind)
    {rest behind : List Token}
    (hrest : ∀ item tail, tokensOf item ++ tail ≠ rest)
    (hbehind : ∀ item tail, tokensOf item ++ tail ≠ behind)
    {items others : List β}
    (heq : items.flatMap tokensOf ++ rest = others.flatMap tokensOf ++ behind) :
    items = others ∧ rest = behind := by
  -- a row cannot stop where the other one goes on, since the rest begins no item
  induction items generalizing others with
  | nil =>
    cases others with
    | nil => exact ⟨rfl, heq⟩
    | cons other others =>
      rw [List.flatMap_cons, List.append_assoc] at heq
      exact absurd heq.symm (hrest other _)
  | cons item items ih =>
    cases others with
    | nil =>
      rw [List.flatMap_cons, List.append_assoc] at heq
      exact absurd heq (hbehind item _)
    | cons other others =>
      rw [List.flatMap_cons, List.flatMap_cons, List.append_assoc, List.append_assoc] at heq
      obtain ⟨rfl, hothers⟩ := hitem _ _ _ _ heq
      obtain ⟨rfl, hclosing⟩ := ih hothers
      exact ⟨rfl, hclosing⟩

/-- Two declarations that begin the same tokens are equal. The semicolon ends the list of names, so
there is no condition on what follows. -/
theorem Declaration.tokens_append_inj (tree other : Declaration) (rest behind : List Token)
    (heq : tree.tokens ++ rest = other.tokens ++ behind) : tree = other ∧ rest = behind := by
  obtain ⟨type, first, others⟩ := tree
  obtain ⟨type', first', others'⟩ := other
  simp only [Declaration.tokens, List.cons_append, List.append_assoc, List.nil_append,
    List.cons.injEq, Token.identifier.injEq] at heq
  obtain ⟨htype, rfl, hothers⟩ := heq
  obtain rfl := TypeName.token_inj htype
  obtain ⟨rfl, hclosing⟩ := flatMap_append_inj (by simp) (by simp) (by simp) hothers
  exact ⟨rfl, List.tail_eq_of_cons_eq hclosing⟩

/-- The same for the declarations of a class, which have a keyword for the kind in front. -/
theorem ClassVarDeclaration.tokens_append_inj (tree other : ClassVarDeclaration)
    (rest behind : List Token) (heq : tree.tokens ++ rest = other.tokens ++ behind) :
    tree = other ∧ rest = behind := by
  obtain ⟨kind, declaration⟩ := tree
  obtain ⟨kind', declaration'⟩ := other
  simp only [ClassVarDeclaration.tokens, List.cons_append, List.cons.injEq,
    Token.keyword.injEq] at heq
  obtain ⟨hkeyword, hdeclaration⟩ := heq
  obtain ⟨rfl, rfl⟩ := Declaration.tokens_append_inj declaration declaration' _ _ hdeclaration
  refine ⟨?_, rfl⟩
  cases kind <;> cases kind' <;> first | rfl | exact absurd hkeyword (by decide)

/-- A parameter is two tokens, a type and a name. -/
theorem Parameter.tokens_append_inj (tree other : Parameter) (rest behind : List Token)
    (heq : tree.tokens ++ rest = other.tokens ++ behind) : tree = other ∧ rest = behind := by
  obtain ⟨type, name⟩ := tree
  obtain ⟨type', name'⟩ := other
  simp only [Parameter.tokens, List.cons_append, List.nil_append, List.cons.injEq,
    Token.identifier.injEq] at heq
  obtain ⟨htype, rfl, rfl⟩ := heq
  obtain rfl := TypeName.token_inj htype
  exact ⟨rfl, rfl⟩

/-- Two lists of parameters up to the closing bracket are equal. The first parameter has no comma in
front of it, so the empty list is a case of its own. -/
theorem Parameter.listTokens_append_inj (list others : List Parameter) {rest behind : List Token}
    (heq : listTokens list ++ .symbol ')' :: rest = listTokens others ++ .symbol ')' :: behind) :
    list = others ∧ rest = behind := by
  -- the closing bracket begins no parameter
  have htype : ∀ type : TypeName, type.token ≠ .symbol ')' := by
    intro type
    cases type <;> simp [TypeName.token]
  cases list with
  | nil =>
    cases others with
    | nil => exact ⟨rfl, List.tail_eq_of_cons_eq heq⟩
    | cons other others =>
      simp only [listTokens, Parameter.tokens, List.cons_append, List.nil_append,
        List.cons.injEq] at heq
      exact absurd heq.1.symm (htype _)
  | cons first list =>
    cases others with
    | nil =>
      simp only [listTokens, Parameter.tokens, List.cons_append, List.nil_append,
        List.cons.injEq] at heq
      exact absurd heq.1 (htype _)
    | cons other others =>
      simp only [listTokens, List.append_assoc] at heq
      obtain ⟨rfl, hothers⟩ := Parameter.tokens_append_inj first other _ _ heq
      have hitem : ∀ (item other : Parameter) (rest behind : List Token),
          Token.symbol ',' :: item.tokens ++ rest = .symbol ',' :: other.tokens ++ behind →
            item = other ∧ rest = behind := by
        intro item other rest behind hcomma
        exact Parameter.tokens_append_inj item other rest behind (List.tail_eq_of_cons_eq hcomma)
      obtain ⟨rfl, hclosing⟩ := flatMap_append_inj hitem (by simp) (by simp) hothers
      exact ⟨rfl, List.tail_eq_of_cons_eq hclosing⟩

/-! ## Subroutines and classes -/

/-- Two subroutines that begin the same tokens are equal. The only place without a mark is the one
between the declarations and the statements, and there the keywords tell. -/
theorem Subroutine.tokens_append_inj (tree other : Subroutine) (rest behind : List Token)
    (heq : tree.tokens ++ rest = other.tokens ++ behind) : tree = other ∧ rest = behind := by
  obtain ⟨kind, result, name, parameters, locals, body⟩ := tree
  obtain ⟨kind', result', name', parameters', locals', body'⟩ := other
  simp only [Subroutine.tokens, List.cons_append, List.append_assoc, List.nil_append,
    List.cons.injEq, Token.keyword.injEq, Token.identifier.injEq, true_and] at heq
  obtain ⟨hkeyword, hresult, rfl, hparameters⟩ := heq
  obtain rfl := resultToken_inj hresult
  obtain rfl : kind = kind' := by
    cases kind <;> cases kind' <;> first | rfl | exact absurd hkeyword (by decide)
  obtain ⟨rfl, hlocals⟩ := Parameter.listTokens_append_inj parameters parameters' hparameters
  have hitem : ∀ (item other : Declaration) (rest behind : List Token),
      Token.keyword .varKw :: item.tokens ++ rest = .keyword .varKw :: other.tokens ++ behind →
        item = other ∧ rest = behind := by
    intro item other rest behind hkeyword
    exact Declaration.tokens_append_inj item other rest behind (List.tail_eq_of_cons_eq hkeyword)
  -- the statements of a body do not begin like a declaration
  have hbody : ∀ (block : Block) (after : List Token) (item : Declaration) (tail : List Token),
      Token.keyword .varKw :: item.tokens ++ tail ≠ block.tokens ++ .symbol '}' :: after := by
    intro block after item tail hvar
    cases block with
    | nil => simp [Block.tokens] at hvar
    | cons first others =>
      obtain ⟨keyword, tail, htokens, -, hkind⟩ := first.exists_tokens_eq
      simp only [Block.tokens, htokens, List.cons_append, List.cons.injEq,
        Token.keyword.injEq] at hvar
      rw [← hvar.1] at hkind
      cases hkind
  obtain ⟨rfl, hblock⟩ := flatMap_append_inj hitem (hbody body rest) (hbody body' behind)
    (List.tail_eq_of_cons_eq hlocals)
  obtain ⟨rfl, rfl⟩ := Block.tokens_append_inj body body' hblock
  exact ⟨rfl, rfl⟩

/-- **Unambiguous.** Two class trees with the same tokens are the same. -/
theorem ClassTree.tokens_inj {tree other : ClassTree} (heq : tree.tokens = other.tokens) :
    tree = other := by
  obtain ⟨name, declarations, subroutines⟩ := tree
  obtain ⟨name', declarations', subroutines'⟩ := other
  simp only [ClassTree.tokens, List.cons.injEq, Token.identifier.injEq, true_and] at heq
  obtain ⟨rfl, hdeclarations⟩ := heq
  -- neither a subroutine nor the end of the class begins like a declaration
  have hends : ∀ (list : List Subroutine) (item : ClassVarDeclaration) (tail : List Token),
      item.tokens ++ tail ≠ list.flatMap Subroutine.tokens ++ [.symbol '}'] := by
    intro list item tail hfirst
    cases list with
    | nil => simp [ClassVarDeclaration.tokens] at hfirst
    | cons sub others =>
      simp only [ClassVarDeclaration.tokens, List.flatMap_cons, Subroutine.tokens,
        List.cons_append, List.cons.injEq, Token.keyword.injEq] at hfirst
      cases hkind : item.kind <;> cases hsub : sub.kind <;> rw [hkind, hsub] at hfirst <;>
        exact absurd hfirst.1 (by decide)
  obtain ⟨rfl, hsubroutines⟩ := flatMap_append_inj ClassVarDeclaration.tokens_append_inj
    (hends subroutines) (hends subroutines') hdeclarations
  obtain ⟨rfl, -⟩ := flatMap_append_inj Subroutine.tokens_append_inj
    (by simp [Subroutine.tokens]) (by simp [Subroutine.tokens]) hsubroutines
  rfl

end Jack.Syntax
