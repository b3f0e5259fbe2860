/-
Class trees: the grammar of the language as data.

The compiler never builds a tree. What it recognises is stated here as a family
of inductive types, one for each rule of the grammar, with a function `tokens`
that writes a tree down again. A token list is a sentence of the grammar exactly
when it is `ClassTree.tokens` of some tree.

The lists inside a tree (`Operations`, `Arguments`, `Block`) are types of their
own rather than `List`s of trees: every function over trees is then structural
recursion over one mutual family, and so is every proof about one.
-/
import Jack.Compiler.Class

set_option autoImplicit false

namespace Jack.Syntax

/-! ## Operators and constants -/

/-- The operators in front of a term. -/
inductive UnaryOperator where
  | negate
  | complement
  deriving DecidableEq, Repr

/-- How a unary operator is written. -/
def UnaryOperator.symbol : UnaryOperator → Char
  | negate => '-'
  | complement => '~'

/-- The operators between two terms. None binds tighter than another. -/
inductive BinaryOperator where
  | add
  | sub
  | and
  | or
  | lt
  | gt
  | eq
  | multiply
  | divide
  deriving DecidableEq, Repr

/-- How a binary operator is written. -/
def BinaryOperator.symbol : BinaryOperator → Char
  | add => '+'
  | sub => '-'
  | and => '&'
  | or => '|'
  | lt => '<'
  | gt => '>'
  | eq => '='
  | multiply => '*'
  | divide => '/'

/-- The keywords that are a value. -/
inductive ConstantWord where
  | true
  | false
  | null
  | this
  deriving DecidableEq, Repr

/-- The keyword of a constant. -/
def ConstantWord.keyword : ConstantWord → Keyword
  | true => .trueKw
  | false => .falseKw
  | null => .nullKw
  | this => .thisKw

/-! ## Expressions -/

mutual

/-- A term. -/
inductive Term where
  | integer (value : Nat)
  | string (content : String)
  | word (word : ConstantWord)
  | var (name : String)
  /-- `array[index]` -/
  | element (array : String) (index : Expression)
  | call (call : Call)
  /-- `(inner)` -/
  | group (inner : Expression)
  | unary (operator : UnaryOperator) (operand : Term)

/-- `term (op term)*` -/
inductive Expression where
  | chain (first : Term) (rest : Operations)

/-- What stands behind the first term of an expression. -/
inductive Operations where
  | nil
  | cons (operator : BinaryOperator) (operand : Term) (rest : Operations)

/-- A call of a subroutine. -/
inductive Call where
  /-- `routine(arguments)` -/
  | bare (routine : String) (arguments : Arguments)
  /-- `owner.routine(arguments)`, where the owner is a variable or a class. -/
  | dotted (owner routine : String) (arguments : Arguments)

/-- The arguments of a call. -/
inductive Arguments where
  | nil
  | cons (first : Expression) (rest : Arguments)

end

/-- The number of arguments. -/
def Arguments.length : Arguments → Nat
  | .nil => 0
  | .cons _ rest => rest.length + 1

mutual

/-- The tokens of a term. -/
def Term.tokens : Term → List Token
  | .integer value => [.integer value]
  | .string content => [.string content]
  | .word word => [.keyword word.keyword]
  | .var name => [.identifier name]
  | .element array index =>
    .identifier array :: .symbol '[' :: (index.tokens ++ [.symbol ']'])
  | .call call => call.tokens
  | .group inner => .symbol '(' :: (inner.tokens ++ [.symbol ')'])
  | .unary operator operand => .symbol operator.symbol :: operand.tokens

/-- The tokens of an expression. -/
def Expression.tokens : Expression → List Token
  | .chain first rest => first.tokens ++ rest.tokens

/-- The tokens behind the first term of an expression. -/
def Operations.tokens : Operations → List Token
  | .nil => []
  | .cons operator operand rest => .symbol operator.symbol :: (operand.tokens ++ rest.tokens)

/-- The tokens of a call. -/
def Call.tokens : Call → List Token
  | .bare routine arguments =>
    .identifier routine :: .symbol '(' :: (arguments.tokens ++ [.symbol ')'])
  | .dotted owner routine arguments =>
    .identifier owner :: .symbol '.' :: .identifier routine :: .symbol '(' ::
      (arguments.tokens ++ [.symbol ')'])

/-- The tokens of arguments, with commas between them. -/
def Arguments.tokens : Arguments → List Token
  | .nil => []
  | .cons first rest => first.tokens ++ rest.moreTokens

/-- The tokens of the arguments behind another one: each has a comma in front. -/
def Arguments.moreTokens : Arguments → List Token
  | .nil => []
  | .cons first rest => .symbol ',' :: (first.tokens ++ rest.moreTokens)

end

/-- A term has a first token. -/
theorem Term.tokens_ne_nil (term : Term) : term.tokens ≠ [] := by
  cases term with
  | call call => cases call <;> simp [Term.tokens, Call.tokens]
  | _ => simp [Term.tokens]

/-- A call begins with a name and one of the two symbols that make it a call. -/
theorem Call.exists_tokens_eq (call : Call) : ∃ first c tail, (c = '(' ∨ c = '.') ∧
    call.tokens = .identifier first :: .symbol c :: tail := by
  cases call with
  | bare routine arguments => exact ⟨routine, '(', _, .inl rfl, rfl⟩
  | dotted owner routine arguments => exact ⟨owner, '.', _, .inr rfl, rfl⟩

/-! ## What can follow an expression

A name alone is a term, and so is a name with brackets, parentheses or a dot
behind it. Where a term ends is therefore a matter of the token behind it. -/

/-- Behind a name this does not make a call or an array element. -/
def EndsTerm (rest : List Token) : Prop :=
  ∀ token ∈ rest.head?, token ≠ .symbol '(' ∧ token ≠ .symbol '.' ∧ token ≠ .symbol '['

/-- Behind a term this does not go on with the expression. -/
def EndsExpression (rest : List Token) : Prop :=
  EndsTerm rest ∧ ∀ token ∈ rest.head?, ∀ operator : BinaryOperator, token ≠ .symbol operator.symbol

/-- The symbols that the grammar has behind an expression. -/
theorem endsExpression_of_closing {c : Char} (hc : c ∈ [')', ']', ',', ';']) (rest : List Token) :
    EndsExpression (.symbol c :: rest) := by
  simp only [List.mem_cons, List.not_mem_nil, or_false] at hc
  constructor
  · rcases hc with rfl | rfl | rfl | rfl <;> simp [EndsTerm]
  · rintro token ⟨⟩ operator
    rcases hc with rfl | rfl | rfl | rfl <;> cases operator <;> simp [BinaryOperator.symbol]

/-- An expression does not begin with a symbol that closes one. -/
theorem Expression.head_ne_closing (expression : Expression) {c : Char} (hc : c ∈ [')', ';'])
    (rest : List Token) : (expression.tokens ++ rest).head? ≠ some (.symbol c) := by
  obtain ⟨first, others⟩ := expression
  simp only [List.mem_cons, List.not_mem_nil, or_false] at hc
  cases first with
  | call call =>
    obtain ⟨name, c, tail, _, htokens⟩ := call.exists_tokens_eq
    simp [Expression.tokens, Term.tokens, htokens]
  | group inner => rcases hc with rfl | rfl <;> simp [Expression.tokens, Term.tokens]
  | unary operator operand =>
    rcases hc with rfl | rfl <;> cases operator <;>
      simp [Expression.tokens, Term.tokens, UnaryOperator.symbol]
  | _ => simp [Expression.tokens, Term.tokens]

/-- A comma or the closing parenthesis ends an argument. -/
theorem Arguments.endsExpression (rest : Arguments) (tokens : List Token) :
    EndsExpression (rest.moreTokens ++ .symbol ')' :: tokens) := by
  cases rest with
  | nil => exact endsExpression_of_closing (by simp) _
  | cons first others => exact endsExpression_of_closing (by simp) _

/-- An operator ends the term in front of it. -/
theorem Operations.endsTerm (rest : Operations) {tokens : List Token}
    (hends : EndsExpression tokens) : EndsTerm (rest.tokens ++ tokens) := by
  cases rest with
  | nil => exact hends.1
  | cons operator operand others =>
    rintro token ⟨⟩
    cases operator <;> simp [BinaryOperator.symbol]

/-! ## Statements -/

mutual

/-- A statement. -/
inductive Statement where
  /-- `let target = value;` -/
  | assign (target : String) (value : Expression)
  /-- `let target[index] = value;` -/
  | store (target : String) (index value : Expression)
  /-- `if (condition) {block}` -/
  | ifThen (condition : Expression) (block : Block)
  /-- `if (condition) {block} else {otherwise}` -/
  | ifElse (condition : Expression) (block otherwise : Block)
  /-- `while (condition) {body}` -/
  | loop (condition : Expression) (body : Block)
  /-- `do call;` -/
  | invoke (call : Call)
  /-- `return;` or `return value;` -/
  | exit (value : Option Expression)

/-- The statements between two braces. -/
inductive Block where
  | nil
  | cons (first : Statement) (rest : Block)

end

mutual

/-- The tokens of a statement. -/
def Statement.tokens : Statement → List Token
  | .assign target value =>
    .keyword .letKw :: .identifier target :: .symbol '=' :: (value.tokens ++ [.symbol ';'])
  | .store target index value =>
    .keyword .letKw :: .identifier target :: .symbol '[' ::
      (index.tokens ++ .symbol ']' :: .symbol '=' :: (value.tokens ++ [.symbol ';']))
  | .ifThen condition block =>
    .keyword .ifKw :: .symbol '(' :: (condition.tokens ++ .symbol ')' :: .symbol '{' ::
      (block.tokens ++ [.symbol '}']))
  | .ifElse condition block otherwise =>
    .keyword .ifKw :: .symbol '(' :: (condition.tokens ++ .symbol ')' :: .symbol '{' ::
      (block.tokens ++ .symbol '}' :: .keyword .elseKw :: .symbol '{' ::
        (otherwise.tokens ++ [.symbol '}'])))
  | .loop condition body =>
    .keyword .whileKw :: .symbol '(' :: (condition.tokens ++ .symbol ')' :: .symbol '{' ::
      (body.tokens ++ [.symbol '}']))
  | .invoke call => .keyword .doKw :: (call.tokens ++ [.symbol ';'])
  | .exit none => [.keyword .returnKw, .symbol ';']
  | .exit (some value) => .keyword .returnKw :: (value.tokens ++ [.symbol ';'])

/-- The tokens of statements in a row. -/
def Block.tokens : Block → List Token
  | .nil => []
  | .cons first rest => first.tokens ++ rest.tokens

end

/-! ## Declarations -/

/-- The type of a variable or of a result. -/
inductive TypeName where
  | int
  | char
  | boolean
  | named (name : String)
  deriving DecidableEq, Repr

namespace TypeName

/-- The token of a type. -/
def token : TypeName → Token
  | int => .keyword .intKw
  | char => .keyword .charKw
  | boolean => .keyword .booleanKw
  | named name => .identifier name

/-- The name of a type. -/
def text : TypeName → String
  | int => "int"
  | char => "char"
  | boolean => "boolean"
  | named name => name

end TypeName

/-- A list of names that are declared together: `type first, other, …;` -/
structure Declaration where
  type : TypeName
  first : String
  others : List String
  deriving DecidableEq, Repr

namespace Declaration

/-- The names that are declared, in order. -/
def names (declaration : Declaration) : List String := declaration.first :: declaration.others

/-- The tokens of a declaration behind the keyword for its kind. -/
def tokens (declaration : Declaration) : List Token :=
  declaration.type.token :: .identifier declaration.first ::
    (declaration.others.flatMap (fun name => [.symbol ',', .identifier name]) ++ [.symbol ';'])

end Declaration

/-- The two kinds of class variable. -/
inductive ClassVarKind where
  | static
  | field
  deriving DecidableEq, Repr

namespace ClassVarKind

/-- The keyword of a kind of class variable. -/
def keyword : ClassVarKind → Keyword
  | static => .staticKw
  | field => .fieldKw

/-- A kind of class variable among the kinds of variable. -/
def varKind : ClassVarKind → VarKind
  | static => .static
  | field => .field

end ClassVarKind

/-- `static …;` or `field …;` -/
structure ClassVarDeclaration where
  kind : ClassVarKind
  declaration : Declaration
  deriving DecidableEq, Repr

/-- The tokens of a declaration of class variables. -/
def ClassVarDeclaration.tokens (declared : ClassVarDeclaration) : List Token :=
  .keyword declared.kind.keyword :: declared.declaration.tokens

/-- A parameter of a subroutine. -/
structure Parameter where
  type : TypeName
  name : String
  deriving DecidableEq, Repr

namespace Parameter

/-- The tokens of a parameter. -/
def tokens (parameter : Parameter) : List Token :=
  [parameter.type.token, .identifier parameter.name]

/-- The tokens of a parameter list, with commas between the parameters. -/
def listTokens : List Parameter → List Token
  | [] => []
  | first :: rest => first.tokens ++ rest.flatMap (fun next => .symbol ',' :: next.tokens)

end Parameter

/-! ## Subroutines and classes -/

/-- The token of a result type; no type is `void`. -/
def resultToken : Option TypeName → Token
  | none => .keyword .voidKw
  | some type => type.token

/-- `kind result name(parameters) {locals body}` -/
structure Subroutine where
  kind : Compiler.SubroutineKind
  result : Option TypeName
  name : String
  parameters : List Parameter
  locals : List Declaration
  body : Block

/-- The tokens of a subroutine. -/
def Subroutine.tokens (subroutine : Subroutine) : List Token :=
  .keyword subroutine.kind.keyword :: resultToken subroutine.result ::
    .identifier subroutine.name :: .symbol '(' ::
      (Parameter.listTokens subroutine.parameters ++ .symbol ')' :: .symbol '{' ::
        (subroutine.locals.flatMap (fun declared => .keyword .varKw :: declared.tokens) ++
          (subroutine.body.tokens ++ [.symbol '}'])))

/-- `class name {declarations subroutines}` -/
structure ClassTree where
  name : String
  declarations : List ClassVarDeclaration
  subroutines : List Subroutine

/-- The tokens of a class. -/
def ClassTree.tokens (tree : ClassTree) : List Token :=
  .keyword .classKw :: .identifier tree.name :: .symbol '{' ::
    (tree.declarations.flatMap ClassVarDeclaration.tokens ++
      (tree.subroutines.flatMap Subroutine.tokens ++ [.symbol '}']))

end Jack.Syntax
