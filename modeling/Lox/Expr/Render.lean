import Lox.Expr

/-!
# Expressions as prefix lists

This file writes an expression so that its nesting can be seen. Every node with parts is a list in
parentheses that starts with its operator, so no rules of precedence are needed to read it: `-a * (b
+ 1.5)` becomes `(* (- a) (group (+ b 1.500000)))`.
-/

namespace Lox.Expr

/-- A list in parentheses: what it is a list of, and its parts with a space in front of each. -/
def parenthesized (name parts : String) : String := "(" ++ name ++ parts ++ ")"

mutual

def render : Expr → String
  | assign target _ value => parenthesized "=" (" " ++ target.lexeme ++ " " ++ value.render)
  | binary left operator right =>
    parenthesized operator.lexeme (" " ++ left.render ++ " " ++ right.render)
  | call callee arguments => parenthesized "call" (" " ++ callee.render ++ renderList arguments)
  | get object name => parenthesized "." (" " ++ object.render ++ " " ++ name.lexeme)
  | grouping inner => parenthesized "group" (" " ++ inner.render)
  | literal value => value.text
  | logical left operator right =>
    parenthesized operator.lexeme (" " ++ left.render ++ " " ++ right.render)
  | set object name value =>
    let target := parenthesized "." (" " ++ object.render ++ " " ++ name.lexeme)
    parenthesized "=" (" " ++ target ++ " " ++ value.render)
  | unary operator right => parenthesized operator.lexeme (" " ++ right.render)
  | var name => name.lexeme

/-- The texts of several expressions, with a space in front of each. -/
def renderList : List Expr → String
  | [] => ""
  | e :: es => " " ++ e.render ++ renderList es

end

end Lox.Expr
