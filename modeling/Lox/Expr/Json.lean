import Lox.Expr
import Lox.Json

/-!
# Expressions as JSON documents

This file gives the JSON document of an expression. A node is an object that names its form under
`type`; a token is an object of its lexeme and its line; members are in alphabetical order.
-/

namespace Lox

/-- A literal is a JSON scalar. A number that is infinite or undefined has none of its own, and is
given by its text. -/
def Value.toJson : Value → Json
  | nil => .null
  | boolean b => .boolean b
  | number x => if Number.isFinite x then .number x else .text (Number.specialText x)
  | string s => .text s

/-- What a document keeps of a token. -/
def Token.toJson (t : Token) : Json :=
  .object [("lexeme", .text t.lexeme), ("line", .natural t.line)]

namespace Expr

/-- The document of a variable; the target of an assignment has the same. -/
def variableJson (name : Token) : Json :=
  .object [("name", name.toJson), ("type", .text "variable")]

mutual

def toJson : Expr → Json
  | assign target operator value =>
    .object [("operator", operator.toJson), ("target", variableJson target),
      ("type", .text "assign"), ("value", value.toJson)]
  | binary left operator right =>
    .object [("left", left.toJson), ("operator", operator.toJson), ("right", right.toJson),
      ("type", .text "binary")]
  | call callee arguments =>
    .object [("arguments", .list (toJsonList arguments)), ("callee", callee.toJson),
      ("type", .text "call")]
  | get object name =>
    .object [("name", name.toJson), ("object", object.toJson), ("type", .text "get")]
  | grouping inner => .object [("inner", inner.toJson), ("type", .text "grouping")]
  | literal value => .object [("type", .text "literal"), ("value", value.toJson)]
  | logical left operator right =>
    .object [("left", left.toJson), ("operator", operator.toJson), ("right", right.toJson),
      ("type", .text "logical")]
  | set object name value =>
    .object [("name", name.toJson), ("object", object.toJson), ("type", .text "set"),
      ("value", value.toJson)]
  | unary operator right =>
    .object [("operator", operator.toJson), ("right", right.toJson), ("type", .text "unary")]
  | var name => variableJson name

/-- The documents of several expressions. -/
def toJsonList : List Expr → List Json
  | [] => []
  | e :: es => e.toJson :: toJsonList es

end

/-- The document of an expression on one line. -/
def jsonText (e : Expr) : String := e.toJson.compact

/-- The document of an expression with a line for each item. -/
def indentedJsonText (e : Expr) : String := e.toJson.indented

end Expr

end Lox
