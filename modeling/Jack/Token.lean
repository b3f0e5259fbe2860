/-
Tokens: the words, delimiters and constants that a source consists of.

A token knows how it is written (`Token.render`) and what its kind is called. An
integer token holds any number; that the lexer only makes those up to
`Token.maxInteger` is a property of the lexer.
-/
import Jack.Error

set_option autoImplicit false

namespace Jack

/-! ## Delimiters -/

/-- The characters that are a token each, wherever they stand in the code. -/
def delimiters : List Char :=
  ['{', '}', '(', ')', '[', ']', '.', ',', ';', '+', '-', '*', '/', '&', '|', '<', '>', '=', '~']

/-- Whether a character is a delimiter. -/
def isDelimiter (c : Char) : Bool := delimiters.contains c

/-! ## Keywords -/

/-- The reserved words of the language. -/
inductive Keyword where
  | classKw
  | constructorKw
  | functionKw
  | methodKw
  | fieldKw
  | staticKw
  | varKw
  | intKw
  | charKw
  | booleanKw
  | voidKw
  | trueKw
  | falseKw
  | nullKw
  | thisKw
  | letKw
  | doKw
  | ifKw
  | elseKw
  | whileKw
  | returnKw
  deriving DecidableEq, Repr

namespace Keyword

/-- How a keyword is written. -/
def text : Keyword → String
  | classKw => "class"
  | constructorKw => "constructor"
  | functionKw => "function"
  | methodKw => "method"
  | fieldKw => "field"
  | staticKw => "static"
  | varKw => "var"
  | intKw => "int"
  | charKw => "char"
  | booleanKw => "boolean"
  | voidKw => "void"
  | trueKw => "true"
  | falseKw => "false"
  | nullKw => "null"
  | thisKw => "this"
  | letKw => "let"
  | doKw => "do"
  | ifKw => "if"
  | elseKw => "else"
  | whileKw => "while"
  | returnKw => "return"

/-- Every keyword once. -/
def all : List Keyword :=
  [classKw, constructorKw, functionKw, methodKw, fieldKw, staticKw, varKw, intKw, charKw,
    booleanKw, voidKw, trueKw, falseKw, nullKw, thisKw, letKw, doKw, ifKw, elseKw, whileKw,
    returnKw]

/-- The keyword that is written as a given word. Case matters. -/
def ofText? (word : String) : Option Keyword := all.find? fun keyword => keyword.text == word

/-- A keyword is found under its own spelling. -/
theorem ofText?_text (keyword : Keyword) : ofText? keyword.text = some keyword := by
  cases keyword <;> decide +kernel

/-- A word that is found is the spelling of what is found. -/
theorem text_of_ofText? {word : String} {keyword : Keyword}
    (hfound : ofText? word = some keyword) :
    keyword.text = word := by
  simpa using List.find?_some hfound

end Keyword

/-! ## Tokens -/

/-- The five kinds of token. -/
inductive TokenKind where
  | keyword
  | symbol
  | identifier
  | integer
  | string
  deriving DecidableEq, Repr

namespace TokenKind

/-- The name of a kind in a token dump. -/
def name : TokenKind → String
  | keyword => "keyword"
  | symbol => "symbol"
  | identifier => "identifier"
  | integer => "integerConstant"
  | string => "stringConstant"

/-- A kind as a message speaks of it. -/
def phrase : TokenKind → String
  | keyword => "a keyword"
  | symbol => "a symbol"
  | identifier => "an identifier"
  | integer => "an integer constant"
  | string => "a string constant"

end TokenKind

/-- A token of the language. -/
inductive Token where
  | keyword (keyword : Keyword)
  /-- A delimiter. -/
  | symbol (character : Char)
  | identifier (name : String)
  | integer (value : Nat)
  /-- A string constant, without its quotes. -/
  | string (content : String)
  deriving DecidableEq, Repr

namespace Token

/-- The largest integer constant that the target machine can represent. -/
def maxInteger : Nat := 32767

/-- The kind of a token. -/
def kind : Token → TokenKind
  | keyword _ => .keyword
  | symbol _ => .symbol
  | identifier _ => .identifier
  | integer _ => .integer
  | string _ => .string

/-- A token's value as text: a string constant without its quotes. -/
def value : Token → String
  | keyword k => k.text
  | symbol c => c.toString
  | identifier name => name
  | integer n => toString n
  | string content => content

/-- A token as it is written in a source. -/
def render : Token → String
  | string content => "\"" ++ content ++ "\""
  | token => token.value

/-- The error of asking a token for the value of another kind. -/
def wrongKind (token : Token) (wanted : TokenKind) : Error :=
  .wrongTokenKind wanted.phrase token.render

/-- The keyword of a keyword token. -/
def asKeyword : Token → Except Error Keyword
  | keyword k => .ok k
  | token => .error (token.wrongKind .keyword)

/-- The character of a symbol token. -/
def asSymbol : Token → Except Error Char
  | symbol c => .ok c
  | token => .error (token.wrongKind .symbol)

/-- The name of an identifier token. -/
def asIdentifier : Token → Except Error String
  | identifier name => .ok name
  | token => .error (token.wrongKind .identifier)

/-- The value of an integer token. -/
def asInteger : Token → Except Error Nat
  | integer n => .ok n
  | token => .error (token.wrongKind .integer)

/-- The content of a string token. -/
def asString : Token → Except Error String
  | string content => .ok content
  | token => .error (token.wrongKind .string)

/-- Whether a token is the symbol of one character. -/
def isSymbol (token : Token) (c : Char) : Bool := token == symbol c

end Token

end Jack
