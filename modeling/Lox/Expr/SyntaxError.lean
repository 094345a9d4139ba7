import Lox.Token.Cursor

/-!
# Why a text is no expression

This file lists the causes of a failed parse, with their messages. A cause names the token that
stood in the wrong place, or the line of the token that broke a limit.
-/

namespace Lox

/-- How many arguments a call may have. -/
def maxArguments : Nat := 255

/-- How many levels groupings, argument lists, operands of prefix operators and assigned values may
open inside each other. -/
def maxNesting : Nat := 48

/-- What has to follow at a place where only one kind of token can. -/
inductive Expectation where
  | closedGrouping
  | closedArguments
  | propertyName
  | endOfExpression
deriving DecidableEq, Repr

namespace Expectation

def kind : Expectation → TokenKind
  | closedGrouping => .rightParen
  | closedArguments => .rightParen
  | propertyName => .identifier
  | endOfExpression => .endOfText

def text : Expectation → String
  | closedGrouping => "')' after expression"
  | closedArguments => "')' after arguments"
  | propertyName => "property name after '.'"
  | endOfExpression => "end of expression"

end Expectation

inductive SyntaxError where
  /-- The text has no further token. -/
  | lexical (error : LexError)
  | unexpectedToken (expected : Expectation) (found : Token)
  /-- No expression starts with this token. -/
  | expectedExpression (found : Token)
  /-- The left side of `=` on this line is neither a variable nor a property. -/
  | invalidAssignmentTarget (line : Nat)
  | tooManyArguments (line : Nat)
  | tooDeep (line : Nat)

namespace SyntaxError

def line : SyntaxError → Nat
  | lexical error => error.line
  | unexpectedToken _ found => found.line
  | expectedExpression found => found.line
  | invalidAssignmentTarget line => line
  | tooManyArguments line => line
  | tooDeep line => line

def message : SyntaxError → String
  | lexical error => error.message
  | unexpectedToken expected found =>
    "[line " ++ toString found.line ++ "] Error at " ++ found.display ++ ": Expect "
      ++ expected.text ++ "."
  | expectedExpression found =>
    "[line " ++ toString found.line ++ "] Error at " ++ found.display ++ ": Expect expression."
  | invalidAssignmentTarget line =>
    "[line " ++ toString line ++ "] Error at '=': Invalid assignment target."
  | tooManyArguments line =>
    "[line " ++ toString line ++ "] Error: Can't have more than " ++ toString maxArguments
      ++ " arguments."
  | tooDeep line =>
    "[line " ++ toString line ++ "] Error: Expression nested more than " ++ toString maxNesting
      ++ " levels deep."

end SyntaxError

end Lox
