import Lox.Span

/-! # Tokens

A token is a kind, the text it was read from, and where that text stands. The
kinds that always look the same are symbols and keywords; the others carry
what they stand for. The end of the input is no token: a stream of tokens
knows where it ends. -/

namespace Lox

/-- The symbols of the language. -/
inductive Symbol where
  | leftParen
  | rightParen
  | leftBrace
  | rightBrace
  | comma
  | dot
  | minus
  | plus
  | semicolon
  | slash
  | star
  | bang
  | bangEqual
  | equal
  | equalEqual
  | greater
  | greaterEqual
  | less
  | lessEqual
deriving Repr, DecidableEq

/-- The words that are no identifiers. -/
inductive Keyword where
  | and
  | break_
  | class_
  | else_
  | false_
  | fun_
  | for_
  | if_
  | nil
  | or
  | print
  | return_
  | super
  | this
  | true_
  | var
  | while_
deriving Repr, DecidableEq

namespace Symbol

/-- The name of a symbol in a token listing. -/
def name : Symbol → String
  | leftParen => "LEFT_PAREN"
  | rightParen => "RIGHT_PAREN"
  | leftBrace => "LEFT_BRACE"
  | rightBrace => "RIGHT_BRACE"
  | comma => "COMMA"
  | dot => "DOT"
  | minus => "MINUS"
  | plus => "PLUS"
  | semicolon => "SEMICOLON"
  | slash => "SLASH"
  | star => "STAR"
  | bang => "BANG"
  | bangEqual => "BANG_EQUAL"
  | equal => "EQUAL"
  | equalEqual => "EQUAL_EQUAL"
  | greater => "GREATER"
  | greaterEqual => "GREATER_EQUAL"
  | less => "LESS"
  | lessEqual => "LESS_EQUAL"

end Symbol

namespace Keyword

/-- The word itself. -/
def text : Keyword → String
  | and => "and"
  | break_ => "break"
  | class_ => "class"
  | else_ => "else"
  | false_ => "false"
  | fun_ => "fun"
  | for_ => "for"
  | if_ => "if"
  | nil => "nil"
  | or => "or"
  | print => "print"
  | return_ => "return"
  | super => "super"
  | this => "this"
  | true_ => "true"
  | var => "var"
  | while_ => "while"

/-- The name of a keyword in a token listing. -/
def name (k : Keyword) : String := k.text.toUpper

/-- All keywords. -/
def all : List Keyword :=
  [and, break_, class_, else_, false_, fun_, for_, if_, nil, or, print, return_, super, this,
    true_, var, while_]

/-- The keyword that a word is, if it is one. -/
def ofText? (word : String) : Option Keyword := all.find? fun k => k.text = word

theorem mem_all (k : Keyword) : k ∈ all := by cases k <;> decide

end Keyword

/-- What a token is. -/
inductive TokenKind where
  | symbol (symbol : Symbol)
  | keyword (keyword : Keyword)
  | identifier
  /-- The text between the quotes. -/
  | string (text : String)
  | number (value : Float)
deriving DecidableEq

/-- A token of a source text. -/
structure Token where
  kind : TokenKind
  lexeme : String
  span : Span
deriving DecidableEq

/-- The tokens of a text, and the byte offset at which the text ends. -/
structure TokenStream where
  tokens : List Token
  finish : Nat
deriving DecidableEq

end Lox
