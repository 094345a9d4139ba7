import Lox.Value

/-!
# Tokens

A token is one of the words that a text is made of. It has a kind, the characters it was written
with, the value it denotes if it is a literal, and the line it starts on. Tokens are plain data:
they stand as leaves in expressions and are compared by what they hold.
-/

namespace Lox

/-- The category of a token. -/
inductive TokenKind where
  | leftParen | rightParen | leftBrace | rightBrace
  | comma | dot | minus | plus | semicolon | slash | star
  | bang | bangEqual | equal | equalEqual | greater | greaterEqual | less | lessEqual
  | identifier | string | number
  | andWord | classWord | elseWord | falseWord | funWord | forWord | ifWord | nilWord
  | orWord | printWord | returnWord | superWord | thisWord | trueWord | varWord | whileWord
  | endOfText
deriving DecidableEq, Repr, Inhabited

namespace TokenKind

/-- The kinds in the order of their declaration. -/
def all : List TokenKind :=
  [leftParen, rightParen, leftBrace, rightBrace, comma, dot, minus, plus, semicolon, slash, star,
    bang, bangEqual, equal, equalEqual, greater, greaterEqual, less, lessEqual,
    identifier, string, number,
    andWord, classWord, elseWord, falseWord, funWord, forWord, ifWord, nilWord,
    orWord, printWord, returnWord, superWord, thisWord, trueWord, varWord, whileWord, endOfText]

theorem mem_all (kind : TokenKind) : kind ∈ all := by cases kind <;> decide

/-- The name of a kind in a list of tokens. -/
def label : TokenKind → String
  | leftParen => "LeftParen"
  | rightParen => "RightParen"
  | leftBrace => "LeftBrace"
  | rightBrace => "RightBrace"
  | comma => "Comma"
  | dot => "Dot"
  | minus => "Minus"
  | plus => "Plus"
  | semicolon => "Semicolon"
  | slash => "Slash"
  | star => "Star"
  | bang => "Bang"
  | bangEqual => "BangEqual"
  | equal => "Equal"
  | equalEqual => "EqualEqual"
  | greater => "Greater"
  | greaterEqual => "GreaterEqual"
  | less => "Less"
  | lessEqual => "LessEqual"
  | identifier => "Identifier"
  | string => "String"
  | number => "Number"
  | andWord => "And"
  | classWord => "Class"
  | elseWord => "Else"
  | falseWord => "False"
  | funWord => "Fun"
  | forWord => "For"
  | ifWord => "If"
  | nilWord => "Nil"
  | orWord => "Or"
  | printWord => "Print"
  | returnWord => "Return"
  | superWord => "Super"
  | thisWord => "This"
  | trueWord => "True"
  | varWord => "Var"
  | whileWord => "While"
  | endOfText => "Eof"

/-- The kind of a reserved word. Any other word is an identifier. -/
def keyword? : String → Option TokenKind
  | "and" => some andWord
  | "class" => some classWord
  | "else" => some elseWord
  | "false" => some falseWord
  | "for" => some forWord
  | "fun" => some funWord
  | "if" => some ifWord
  | "nil" => some nilWord
  | "or" => some orWord
  | "print" => some printWord
  | "return" => some returnWord
  | "super" => some superWord
  | "this" => some thisWord
  | "true" => some trueWord
  | "var" => some varWord
  | "while" => some whileWord
  | _ => none

/-- The value a reserved word denotes, for the three that denote one. -/
def wordValue? : TokenKind → Option Value
  | trueWord => some (.boolean true)
  | falseWord => some (.boolean false)
  | nilWord => some .nil
  | _ => none

end TokenKind

/-- A word of a text. -/
structure Token where
  kind : TokenKind
  lexeme : String
  literal : Option Value
  line : Nat
deriving Inhabited

namespace Token

/-- The token after the last character of a text. -/
def atEnd (line : Nat) : Token := ⟨.endOfText, "", none, line⟩

/-- A token that is no literal. -/
def plain (kind : TokenKind) (lexeme : String) (line : Nat) : Token :=
  ⟨kind, lexeme, none, line⟩

protected def beq (s t : Token) : Bool :=
  s.kind == t.kind && s.lexeme == t.lexeme && s.literal == t.literal && s.line == t.line

instance : BEq Token := ⟨Token.beq⟩

/-- How a message names a token: its characters in quotes, or the end of the text. -/
def display (t : Token) : String :=
  match t.kind with
  | .endOfText => "end"
  | _ => "'" ++ t.lexeme ++ "'"

end Token

end Lox
