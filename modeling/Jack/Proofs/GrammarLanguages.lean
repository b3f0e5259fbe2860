/-
The grammar as equations between languages.

The sentences of a rule are the tokens of its trees. Here they are written as products and sums
of the sentences of other rules, in the order in which they are read: a product for a sequence,
a sum for a choice, and for a repetition a language that is empty or one round and then the
language again. A rule with several kinds of sentences is taken apart by its first token, and
what is said is what can stand behind that token (`cons_mem_terms`, `cons_mem_statements`).

The languages are defined by the trees, so nothing is assumed here about how they are read.
-/
import Mathlib.Computability.Language
import Jack.Proofs.CompiledStatement

set_option autoImplicit false

namespace Jack.Syntax

/-! ## Sentences -/

/-- The token lists that some trees stand for. -/
def sentences {β : Type} (tokens : β → List Token) : Language Token := Set.range tokens

/-- Repetitions of what some trees stand for. -/
def repeated {β : Type} (tokens : β → List Token) : Language Token :=
  sentences (List.flatMap tokens)

/-- A repetition is empty, or one round and then a repetition again. -/
theorem repeated_eq {β : Type} (tokens : β → List Token) :
    repeated tokens = 1 + sentences tokens * repeated tokens := by
  ext text
  constructor
  · rintro ⟨trees, rfl⟩
    cases trees with
    | nil => exact .inl rfl
    | cons first rest => exact .inr ⟨_, ⟨first, rfl⟩, _, ⟨rest, rfl⟩, rfl⟩
  · rintro (rfl | ⟨_, ⟨first, rfl⟩, _, ⟨rest, rfl⟩, rfl⟩)
    · exact ⟨[], rfl⟩
    · exact ⟨first :: rest, rfl⟩

/-- What can stand behind a given first token. -/
theorem cons_mem_single_mul {token first : Token} {language : Language Token}
    {tail : List Token} :
    token :: tail ∈ ({[first]} : Language Token) * language ↔ token = first ∧ tail ∈ language := by
  constructor
  · rintro ⟨_, rfl, more, hmore, heq⟩
    obtain ⟨rfl, rfl⟩ := List.cons.inj heq
    exact ⟨rfl, hmore⟩
  · rintro ⟨rfl, htail⟩
    exact ⟨[token], rfl, tail, htail, rfl⟩

/-! ## Names and types -/

/-- What is read as a name. -/
def names : Language Token := sentences fun name : String => [Token.identifier name]

/-- What is read as a type. -/
def types : Language Token := sentences fun type : TypeName => [type.token]

/-- What is read as the type of a result: a type or `void`. -/
def resultTypes : Language Token := sentences fun result : Option TypeName => [resultToken result]

/-- A result is of no type or of one. -/
theorem resultTypes_eq : resultTypes = {[.keyword .voidKw]} + types := by
  ext text
  constructor
  · rintro ⟨result, rfl⟩
    cases result with
    | none => exact .inl rfl
    | some type => exact .inr ⟨type, rfl⟩
  · rintro (rfl | ⟨type, rfl⟩)
    · exact ⟨none, rfl⟩
    · exact ⟨some type, rfl⟩

/-! ## Expressions -/

/-- What is read as a term. -/
def terms : Language Token := sentences Term.tokens

/-- What is read as an expression. -/
def expressions : Language Token := sentences Expression.tokens

/-- What stands between two terms of an expression. -/
def operators : Language Token :=
  sentences fun operator : BinaryOperator => [.symbol operator.symbol]

/-- What follows the first term of an expression. -/
def operations : Language Token := sentences Operations.tokens

/-- What stands between the brackets of a call. -/
def argumentLists : Language Token := sentences Arguments.tokens

/-- What follows the first argument. -/
def moreArguments : Language Token := sentences Arguments.moreTokens

/-- An expression is a term and what follows it. -/
theorem expressions_eq : expressions = terms * operations := by
  ext text
  constructor
  · rintro ⟨⟨first, rest⟩, rfl⟩
    exact ⟨_, ⟨first, rfl⟩, _, ⟨rest, rfl⟩, rfl⟩
  · rintro ⟨_, ⟨first, rfl⟩, _, ⟨rest, rfl⟩, rfl⟩
    exact ⟨.chain first rest, rfl⟩

/-- What follows a term is nothing, or an operator with a term and more of the same. The equation is
what a repetition of the compiler is matched with. -/
theorem operations_eq : operations = 1 + operators * terms * operations := by
  ext text
  constructor
  · rintro ⟨_ | ⟨operator, operand, rest⟩, rfl⟩
    · exact .inl rfl
    · exact .inr ⟨_, ⟨_, ⟨operator, rfl⟩, _, ⟨operand, rfl⟩, rfl⟩, _, ⟨rest, rfl⟩, rfl⟩
  · rintro (rfl | ⟨_, ⟨_, ⟨operator, rfl⟩, _, ⟨operand, rfl⟩, rfl⟩, _, ⟨rest, rfl⟩, rfl⟩)
    · exact ⟨.nil, rfl⟩
    · exact ⟨.cons operator operand rest, rfl⟩

/-- Arguments are nothing, or an expression and what follows it. -/
theorem argumentLists_eq : argumentLists = 1 + expressions * moreArguments := by
  ext text
  constructor
  · rintro ⟨_ | ⟨first, rest⟩, rfl⟩
    · exact .inl rfl
    · exact .inr ⟨_, ⟨first, rfl⟩, _, ⟨rest, rfl⟩, rfl⟩
  · rintro (rfl | ⟨_, ⟨first, rfl⟩, _, ⟨rest, rfl⟩, rfl⟩)
    · exact ⟨.nil, rfl⟩
    · exact ⟨.cons first rest, rfl⟩

/-- What follows an argument is nothing, or a comma with an expression and more of the same. -/
theorem moreArguments_eq :
    moreArguments = 1 + {[.symbol ',']} * expressions * moreArguments := by
  ext text
  constructor
  · rintro ⟨_ | ⟨first, rest⟩, rfl⟩
    · exact .inl rfl
    · exact .inr ⟨_, ⟨_, rfl, _, ⟨first, rfl⟩, rfl⟩, _, ⟨rest, rfl⟩, rfl⟩
  · rintro (rfl | ⟨_, ⟨_, rfl, _, ⟨first, rfl⟩, rfl⟩, _, ⟨rest, rfl⟩, rfl⟩)
    · exact ⟨.nil, rfl⟩
    · exact ⟨.cons first rest, rfl⟩

/-- What a language is between two symbols. -/
def enclosed (opening : Char) (language : Language Token) (closing : Char) : Language Token :=
  {[.symbol opening]} * (language * {[.symbol closing]})

/-- What is in brackets has its brackets around it. -/
theorem mem_enclosed {opening closing : Char} {language : Language Token} {text : List Token} :
    text ∈ enclosed opening language closing ↔
      ∃ inner ∈ language, text = .symbol opening :: (inner ++ [.symbol closing]) := by
  constructor
  · rintro ⟨_, rfl, _, ⟨inner, hinner, _, rfl, rfl⟩, rfl⟩
    exact ⟨inner, hinner, rfl⟩
  · rintro ⟨inner, hinner, rfl⟩
    exact ⟨_, rfl, _, ⟨inner, hinner, _, rfl, rfl⟩, rfl⟩

/-- What is in brackets begins with the opening one, whatever is behind. -/
theorem head?_of_mem_enclosed {opening closing : Char} {language : Language Token}
    {text : List Token} (htext : text ∈ enclosed opening language closing) (behind : List Token) :
    (text ++ behind).head? = some (.symbol opening) := by
  obtain ⟨inner, -, rfl⟩ := mem_enclosed.1 htext
  rfl

/-- What stands behind the first name of a call. -/
def callTails : Language Token :=
  ({[.symbol '.']} * names + 1) * enclosed '(' argumentLists ')'

/-- What stands behind a name that begins a term. -/
def namedTails : Language Token := callTails + (enclosed '[' expressions ']' + 1)

/-- What stands behind the first token of a term. -/
def termTails : Token → Language Token
  | .integer _ | .string _ | .keyword .trueKw | .keyword .falseKw | .keyword .nullKw
  | .keyword .thisKw => 1
  | .identifier _ => namedTails
  | .symbol '(' => expressions * {[.symbol ')']}
  | .symbol '-' | .symbol '~' => terms
  | _ => 0

/-- A call begins with a name. -/
theorem cons_mem_calls {token : Token} {tail : List Token} :
    token :: tail ∈ sentences Call.tokens ↔ ∃ first, token = .identifier first ∧ tail ∈ callTails := by
  constructor
  · rintro ⟨⟨routine, arguments⟩ | ⟨owner, routine, arguments⟩, htokens⟩
    · cases htokens
      exact ⟨routine, rfl, [], .inr rfl, _, mem_enclosed.2 ⟨_, ⟨arguments, rfl⟩, rfl⟩, rfl⟩
    · cases htokens
      exact ⟨owner, rfl, _, .inl ⟨_, rfl, _, ⟨routine, rfl⟩, rfl⟩, _,
        mem_enclosed.2 ⟨_, ⟨arguments, rfl⟩, rfl⟩, rfl⟩
  · rintro ⟨first, rfl, _, hroutine, _, hlist, rfl⟩
    obtain ⟨_, ⟨arguments, rfl⟩, rfl⟩ := mem_enclosed.1 hlist
    rcases hroutine with ⟨_, rfl, _, ⟨routine, rfl⟩, rfl⟩ | rfl
    · exact ⟨.dotted first routine arguments, rfl⟩
    · exact ⟨.bare first arguments, rfl⟩

/-- **The first token of a term** says what else there is of it. -/
theorem cons_mem_terms {token : Token} {tail : List Token} :
    token :: tail ∈ terms ↔ tail ∈ termTails token := by
  constructor
  · rintro ⟨tree, htokens⟩
    cases tree with
    | call invoked =>
      obtain ⟨first, rfl, htail⟩ := cons_mem_calls.1 ⟨invoked, htokens⟩
      exact .inl htail
    | integer value =>
      cases htokens
      exact rfl
    | string content =>
      cases htokens
      exact rfl
    | word constant =>
      cases htokens
      cases constant <;> exact rfl
    | var name =>
      cases htokens
      exact .inr (.inr rfl)
    | element array index =>
      cases htokens
      exact .inr (.inl (mem_enclosed.2 ⟨_, ⟨index, rfl⟩, rfl⟩))
    | group inner =>
      cases htokens
      exact ⟨_, ⟨inner, rfl⟩, _, rfl, rfl⟩
    | unary operator operand =>
      cases htokens
      cases operator <;> exact ⟨operand, rfl⟩
  · intro htail
    -- back from the first token to a tree, one case for each kind of first token
    unfold termTails at htail
    split at htail
    · obtain rfl := htail
      exact ⟨.integer _, rfl⟩
    · obtain rfl := htail
      exact ⟨.string _, rfl⟩
    · obtain rfl := htail
      exact ⟨.word .true, rfl⟩
    · obtain rfl := htail
      exact ⟨.word .false, rfl⟩
    · obtain rfl := htail
      exact ⟨.word .null, rfl⟩
    · obtain rfl := htail
      exact ⟨.word .this, rfl⟩
    · next name =>
      rcases htail with hcall | helement | rfl
      · obtain ⟨invoked, hinvoked⟩ := cons_mem_calls.2 ⟨name, rfl, hcall⟩
        exact ⟨.call invoked, hinvoked⟩
      · obtain ⟨_, ⟨index, rfl⟩, rfl⟩ := mem_enclosed.1 helement
        exact ⟨.element name index, rfl⟩
      · exact ⟨.var name, rfl⟩
    · obtain ⟨_, ⟨inner, rfl⟩, _, rfl, rfl⟩ := htail
      exact ⟨.group inner, rfl⟩
    · obtain ⟨operand, rfl⟩ := htail
      exact ⟨.unary .negate operand, rfl⟩
    · obtain ⟨operand, rfl⟩ := htail
      exact ⟨.unary .complement operand, rfl⟩
    · exact absurd htail (Language.notMem_zero tail)

/-- There is no empty term. -/
theorem ne_nil_of_mem_terms {text : List Token} (htext : text ∈ terms) : text ≠ [] := by
  obtain ⟨tree, rfl⟩ := htext
  exact tree.tokens_ne_nil

/-! ## Statements -/

/-- What is read as one statement. -/
def statements : Language Token := sentences Statement.tokens

/-- What is read as statements one behind the other. -/
def blocks : Language Token := sentences Block.tokens

/-- A block is nothing, or a statement and another block. -/
theorem blocks_eq : blocks = 1 + statements * blocks := by
  ext text
  constructor
  · rintro ⟨_ | ⟨first, rest⟩, rfl⟩
    · exact .inl rfl
    · exact .inr ⟨_, ⟨first, rfl⟩, _, ⟨rest, rfl⟩, rfl⟩
  · rintro (rfl | ⟨_, ⟨first, rfl⟩, _, ⟨rest, rfl⟩, rfl⟩)
    · exact ⟨.nil, rfl⟩
    · exact ⟨.cons first rest, rfl⟩

/-- `= value;` -/
def assigned : Language Token := {[.symbol '=']} * (expressions * {[.symbol ';']})

theorem mem_assigned {text : List Token} : text ∈ assigned ↔
    ∃ value : Expression, text = .symbol '=' :: (value.tokens ++ [.symbol ';']) := by
  constructor
  · rintro ⟨_, rfl, _, ⟨_, ⟨value, rfl⟩, _, rfl, rfl⟩, rfl⟩
    exact ⟨value, rfl⟩
  · rintro ⟨value, rfl⟩
    exact ⟨_, rfl, _, ⟨_, ⟨value, rfl⟩, _, rfl, rfl⟩, rfl⟩

/-- `else {block}`, or nothing. -/
def alternatives : Language Token := {[.keyword .elseKw]} * enclosed '{' blocks '}' + 1

/-- What stands behind the keyword of a statement. -/
def statementTails : Compiler.StatementKind → Language Token
  | .assignment => names * (enclosed '[' expressions ']' * assigned + assigned)
  | .conditional => enclosed '(' expressions ')' * (enclosed '{' blocks '}' * alternatives)
  | .loop => enclosed '(' expressions ')' * enclosed '{' blocks '}'
  | .invocation => names * (callTails * {[.symbol ';']})
  | .exit => {[.symbol ';']} + expressions * {[.symbol ';']}

/-- What stands behind the first token of a statement is what its keyword asks for. -/
theorem Statement.exists_tail (tree : Statement) : ∃ keyword tail,
    tree.tokens = .keyword keyword :: tail ∧
      Compiler.statementKind? (.keyword keyword) = some tree.kind ∧
        tail ∈ statementTails tree.kind := by
  -- conditions and blocks come in several statements
  have hguard (condition : Expression) :
      .symbol '(' :: (condition.tokens ++ [.symbol ')']) ∈ enclosed '(' expressions ')' :=
    mem_enclosed.2 ⟨_, ⟨condition, rfl⟩, rfl⟩
  have hbody (block : Block) :
      .symbol '{' :: (block.tokens ++ [.symbol '}']) ∈ enclosed '{' blocks '}' :=
    mem_enclosed.2 ⟨_, ⟨block, rfl⟩, rfl⟩
  cases tree with
  | assign target value =>
    exact ⟨_, _, rfl, rfl, _, ⟨target, rfl⟩, _, .inr (mem_assigned.2 ⟨value, rfl⟩), rfl⟩
  | store target index value =>
    have hindex : .symbol '[' :: (index.tokens ++ [.symbol ']']) ∈ enclosed '[' expressions ']' :=
      mem_enclosed.2 ⟨_, ⟨index, rfl⟩, rfl⟩
    have hstored := Language.append_mem_mul hindex (mem_assigned.2 ⟨value, rfl⟩)
    exact ⟨_, _, rfl, rfl, _, ⟨target, rfl⟩, _, .inl hstored, by simp⟩
  | ifThen condition block =>
    have halone := Language.append_mem_mul (hbody block) (show [] ∈ alternatives from .inr rfl)
    exact ⟨_, _, rfl, rfl, _, hguard condition, _, halone, by simp⟩
  | ifElse condition block otherwise =>
    have helse : .keyword .elseKw :: .symbol '{' :: (otherwise.tokens ++ [.symbol '}']) ∈
        alternatives := .inl ⟨_, rfl, _, hbody otherwise, rfl⟩
    have hboth := Language.append_mem_mul (hbody block) helse
    exact ⟨_, _, rfl, rfl, _, hguard condition, _, hboth, by simp⟩
  | loop condition body =>
    exact ⟨_, _, rfl, rfl, _, hguard condition, _, hbody body, by simp⟩
  | invoke invoked =>
    obtain ⟨first, c, tail, -, htokens⟩ := invoked.exists_tokens_eq
    obtain ⟨_, hfirst, htail⟩ := cons_mem_calls.1 ⟨invoked, htokens⟩
    cases hfirst
    refine ⟨_, _, rfl, rfl, _, ⟨first, rfl⟩, _, ⟨_, htail, _, rfl, rfl⟩, ?_⟩
    rw [htokens]
    rfl
  | exit value =>
    cases value with
    | none => exact ⟨_, _, rfl, rfl, .inl rfl⟩
    | some value => exact ⟨_, _, rfl, rfl, .inr ⟨_, ⟨value, rfl⟩, _, rfl, rfl⟩⟩

/-- **The first token of a statement** is a keyword that says what else there is of it. -/
theorem cons_mem_statements {token : Token} {tail : List Token} :
    token :: tail ∈ statements ↔
      ∃ kind, Compiler.statementKind? token = some kind ∧ tail ∈ statementTails kind := by
  constructor
  · rintro ⟨tree, htokens⟩
    obtain ⟨keyword, tail', htree, hkind, htail⟩ := tree.exists_tail
    rw [htokens] at htree
    obtain ⟨rfl, rfl⟩ := List.cons.inj htree
    exact ⟨tree.kind, hkind, htail⟩
  · rintro ⟨kind, hkind, htail⟩
    -- the keyword leaves one kind of statement, and for two of them the tail decides further
    unfold Compiler.statementKind? at hkind
    split at hkind <;> cases hkind
    · obtain ⟨_, ⟨target, rfl⟩, _, ⟨_, hindex, _, hvalue, rfl⟩ | hvalue, rfl⟩ := htail
      · obtain ⟨_, ⟨index, rfl⟩, rfl⟩ := mem_enclosed.1 hindex
        obtain ⟨value, rfl⟩ := mem_assigned.1 hvalue
        exact ⟨.store target index value, by simp [Statement.tokens]⟩
      · obtain ⟨value, rfl⟩ := mem_assigned.1 hvalue
        exact ⟨.assign target value, rfl⟩
    · obtain ⟨_, hguard, _, ⟨_, hbody, _, ⟨_, rfl, _, helse, rfl⟩ | rfl, rfl⟩, rfl⟩ := htail
      · obtain ⟨_, ⟨condition, rfl⟩, rfl⟩ := mem_enclosed.1 hguard
        obtain ⟨_, ⟨block, rfl⟩, rfl⟩ := mem_enclosed.1 hbody
        obtain ⟨_, ⟨otherwise, rfl⟩, rfl⟩ := mem_enclosed.1 helse
        exact ⟨.ifElse condition block otherwise, by simp [Statement.tokens]⟩
      · obtain ⟨_, ⟨condition, rfl⟩, rfl⟩ := mem_enclosed.1 hguard
        obtain ⟨_, ⟨block, rfl⟩, rfl⟩ := mem_enclosed.1 hbody
        exact ⟨.ifThen condition block, by simp [Statement.tokens]⟩
    · obtain ⟨_, hguard, _, hbody, rfl⟩ := htail
      obtain ⟨_, ⟨condition, rfl⟩, rfl⟩ := mem_enclosed.1 hguard
      obtain ⟨_, ⟨body, rfl⟩, rfl⟩ := mem_enclosed.1 hbody
      exact ⟨.loop condition body, by simp [Statement.tokens]⟩
    · obtain ⟨_, ⟨first, rfl⟩, _, ⟨callTail, hcall, _, rfl, rfl⟩, rfl⟩ := htail
      obtain ⟨invoked, hinvoked⟩ := cons_mem_calls.2 ⟨first, rfl, hcall⟩
      exact ⟨.invoke invoked, by simp [Statement.tokens, hinvoked]⟩
    · rcases htail with rfl | ⟨_, ⟨value, rfl⟩, _, rfl, rfl⟩
      · exact ⟨.exit none, rfl⟩
      · exact ⟨.exit (some value), rfl⟩

/-- A statement begins with the keyword of its kind. -/
theorem exists_head_of_mem_statements {text : List Token} (htext : text ∈ statements) :
    ∃ token rest, text = token :: rest ∧ (Compiler.statementKind? token).isSome := by
  obtain ⟨tree, rfl⟩ := htext
  obtain ⟨keyword, tail, htokens, hkind, -⟩ := tree.exists_tail
  exact ⟨_, tail, htokens, by rw [hkind, Option.isSome_some]⟩

/-! ## Declarations -/

/-- Sentences that all begin with one token. -/
theorem sentences_cons {β : Type} (token : Token) (tokens : β → List Token) :
    sentences (fun tree => token :: tokens tree) = {[token]} * sentences tokens := by
  ext text
  constructor
  · rintro ⟨tree, rfl⟩
    exact ⟨[token], rfl, _, ⟨tree, rfl⟩, rfl⟩
  · rintro ⟨_, rfl, _, ⟨tree, rfl⟩, rfl⟩
    exact ⟨tree, rfl⟩

def moreNames : Language Token := repeated fun name : String => [.symbol ',', .identifier name]

/-- What follows a name of a declaration is nothing, or a comma with a name and more of the same. -/
theorem moreNames_eq : moreNames = 1 + {[.symbol ',']} * names * moreNames := by
  rw [names, ← sentences_cons]
  exact repeated_eq _

/-- Declarations behind the keyword for their kind. -/
def declarations : Language Token := sentences Declaration.tokens

/-- A declaration is a type with one name or more, up to the semicolon. -/
theorem declarations_eq : declarations = types * (names * moreNames * {[.symbol ';']}) := by
  ext text
  constructor
  · rintro ⟨⟨type, first, others⟩, rfl⟩
    have hnames : .identifier first :: others.flatMap (fun name => [.symbol ',', .identifier name]) ∈
        names * moreNames := ⟨_, ⟨first, rfl⟩, _, ⟨others, rfl⟩, rfl⟩
    exact ⟨_, ⟨type, rfl⟩, _, ⟨_, hnames, _, rfl, rfl⟩, rfl⟩
  · rintro ⟨_, ⟨type, rfl⟩, _, ⟨_, ⟨_, ⟨first, rfl⟩, _, ⟨others, rfl⟩, rfl⟩, _, rfl, rfl⟩, rfl⟩
    exact ⟨⟨type, first, others⟩, rfl⟩

def classVariables : Language Token := sentences ClassVarDeclaration.tokens

/-- A declaration of the class begins with the keyword of its kind. -/
theorem cons_mem_classVariables {token : Token} {tail : List Token} :
    token :: tail ∈ classVariables ↔
      (Compiler.classVarKind? token).isSome ∧ tail ∈ declarations := by
  constructor
  · rintro ⟨⟨kind, declared⟩, htokens⟩
    cases htokens
    exact ⟨by cases kind <;> rfl, declared, rfl⟩
  · rintro ⟨hkind, declared, rfl⟩
    unfold Compiler.classVarKind? at hkind
    split at hkind
    · exact ⟨⟨.static, declared⟩, rfl⟩
    · exact ⟨⟨.field, declared⟩, rfl⟩
    · cases hkind

def bodyVariables : Language Token :=
  sentences fun declared : Declaration => .keyword .varKw :: declared.tokens

/-- A declaration of a body begins with its keyword. -/
theorem cons_mem_bodyVariables {token : Token} {tail : List Token} :
    token :: tail ∈ bodyVariables ↔
      (Compiler.bodyVarKind? token).isSome ∧ tail ∈ declarations := by
  rw [bodyVariables, sentences_cons, cons_mem_single_mul]
  refine and_congr_left fun _ => ⟨?_, fun hkind => ?_⟩
  · rintro rfl
    rfl
  · unfold Compiler.bodyVarKind? at hkind
    split at hkind
    · rfl
    · cases hkind

/-! ## Subroutines -/

def parameters : Language Token := sentences Parameter.tokens

theorem parameters_eq : parameters = types * names := by
  ext text
  constructor
  · rintro ⟨⟨type, name⟩, rfl⟩
    exact ⟨_, ⟨type, rfl⟩, _, ⟨name, rfl⟩, rfl⟩
  · rintro ⟨_, ⟨type, rfl⟩, _, ⟨name, rfl⟩, rfl⟩
    exact ⟨⟨type, name⟩, rfl⟩

def moreParameters : Language Token :=
  repeated fun next : Parameter => .symbol ',' :: next.tokens

theorem moreParameters_eq : moreParameters = 1 + {[.symbol ',']} * parameters * moreParameters := by
  rw [parameters, ← sentences_cons]
  exact repeated_eq _

def parameterLists : Language Token := sentences Parameter.listTokens

/-- Parameters are none, or one and what follows it. -/
theorem parameterLists_eq : parameterLists = 1 + parameters * moreParameters := by
  ext text
  constructor
  · rintro ⟨_ | ⟨first, rest⟩, rfl⟩
    · exact .inl rfl
    · exact .inr ⟨_, ⟨first, rfl⟩, _, ⟨rest, rfl⟩, rfl⟩
  · rintro (rfl | ⟨_, ⟨first, rfl⟩, _, ⟨rest, rfl⟩, rfl⟩)
    · exact ⟨[], rfl⟩
    · exact ⟨first :: rest, rfl⟩

/-- `{declarations statements}` -/
def bodies : Language Token :=
  {[.symbol '{']} *
    (repeated (fun declared : Declaration => .keyword .varKw :: declared.tokens) *
      (blocks * {[.symbol '}']}))

/-- What stands behind the keyword of a subroutine. -/
def subroutineTails : Language Token :=
  resultTypes * (names * (enclosed '(' parameterLists ')' * bodies))

def subroutines : Language Token := sentences Subroutine.tokens

/-- A subroutine begins with the keyword of its kind. -/
theorem cons_mem_subroutines {token : Token} {tail : List Token} :
    token :: tail ∈ subroutines ↔
      (Compiler.subroutineKind? token).isSome ∧ tail ∈ subroutineTails := by
  constructor
  · rintro ⟨⟨kind, result, name, parameters, locals, body⟩, htokens⟩
    cases htokens
    have hparameters : .symbol '(' :: (Parameter.listTokens parameters ++ [.symbol ')']) ∈
        enclosed '(' parameterLists ')' := mem_enclosed.2 ⟨_, ⟨parameters, rfl⟩, rfl⟩
    refine ⟨by cases kind <;> rfl, _, ⟨result, rfl⟩, _, ⟨_, ⟨name, rfl⟩, _, ⟨_, hparameters, _,
      ⟨_, rfl, _, ⟨_, ⟨locals, rfl⟩, _, ⟨_, ⟨body, rfl⟩, _, rfl, rfl⟩, rfl⟩, rfl⟩, rfl⟩, rfl⟩, ?_⟩
    simp
  · rintro ⟨hkind, _, ⟨result, rfl⟩, _, ⟨_, ⟨name, rfl⟩, _, ⟨_, hparameters, _,
      ⟨_, rfl, _, ⟨_, ⟨locals, rfl⟩, _, ⟨_, ⟨body, rfl⟩, _, rfl, rfl⟩, rfl⟩, rfl⟩, rfl⟩, rfl⟩, rfl⟩
    obtain ⟨_, ⟨parameters, rfl⟩, rfl⟩ := mem_enclosed.1 hparameters
    obtain ⟨kind, hkind⟩ := Option.isSome_iff_exists.1 hkind
    obtain rfl : token = .keyword kind.keyword := by
      unfold Compiler.subroutineKind? at hkind
      split at hkind <;> cases hkind <;> rfl
    exact ⟨⟨kind, result, name, parameters, locals, body⟩, by simp [Subroutine.tokens]⟩

/-! ## Classes -/

/-- The grammar of the language. -/
def classes : Language Token := sentences ClassTree.tokens

/-- A class, part by part in the order in which it is read. -/
theorem classes_eq : classes =
    {[.keyword .classKw]} * (names * ({[.symbol '{']} *
      (repeated ClassVarDeclaration.tokens *
        (repeated Subroutine.tokens * {[.symbol '}']})))) := by
  ext text
  constructor
  · rintro ⟨⟨name, declared, routines⟩, rfl⟩
    exact ⟨_, rfl, _, ⟨_, ⟨name, rfl⟩, _, ⟨_, rfl, _, ⟨_, ⟨declared, rfl⟩, _,
      ⟨_, ⟨routines, rfl⟩, _, rfl, rfl⟩, rfl⟩, rfl⟩, rfl⟩, rfl⟩
  · rintro ⟨_, rfl, _, ⟨_, ⟨name, rfl⟩, _, ⟨_, rfl, _, ⟨_, ⟨declared, rfl⟩, _,
      ⟨_, ⟨routines, rfl⟩, _, rfl, rfl⟩, rfl⟩, rfl⟩, rfl⟩, rfl⟩
    exact ⟨⟨name, declared, routines⟩, rfl⟩

end Jack.Syntax
