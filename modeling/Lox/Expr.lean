import Lox.Token

/-!
# Expressions

An expression is the tree that a text denotes. A node keeps the tokens that name something in it (a
variable, a property, an operator), because their lines go into error messages. Parentheses, commas
and points are not kept, but a pair of grouping parentheses is a node of its own.

Any combination of nodes and tokens is an expression, also one that no text denotes.
-/

namespace Lox

inductive Expr where
  /-- `target = value`, for a variable. -/
  | assign (target operator : Token) (value : Expr)
  /-- An operator that evaluates both sides. -/
  | binary (left : Expr) (operator : Token) (right : Expr)
  | call (callee : Expr) (arguments : List Expr)
  /-- `object.name`. -/
  | get (object : Expr) (name : Token)
  | grouping (inner : Expr)
  | literal (value : Value)
  /-- An operator that may leave its right side unevaluated. -/
  | logical (left : Expr) (operator : Token) (right : Expr)
  /-- `object.name = value`. -/
  | set (object : Expr) (name : Token) (value : Expr)
  | unary (operator : Token) (right : Expr)
  | var (name : Token)
deriving Inhabited

namespace Expr

/-- The line of a node's own token, which for an operator with two sides is the operator. A call
and a grouping take the line of their callee or inner expression, and a literal has none. -/
def line? : Expr → Option Nat
  | assign target _ _ => some target.line
  | binary _ operator _ => some operator.line
  | call callee _ => callee.line?
  | get _ name => some name.line
  | grouping inner => inner.line?
  | literal _ => none
  | logical _ operator _ => some operator.line
  | set _ name _ => some name.line
  | unary operator _ => some operator.line
  | var name => some name.line

/-! ## Equality compares nodes, tokens and literals -/

mutual

protected def beq : Expr → Expr → Bool
  | assign t o v, assign t' o' v' => t == t' && o == o' && v.beq v'
  | binary l o r, binary l' o' r' => l.beq l' && o == o' && r.beq r'
  | call c as, call c' as' => c.beq c' && beqList as as'
  | get e n, get e' n' => e.beq e' && n == n'
  | grouping e, grouping e' => e.beq e'
  | literal v, literal v' => v == v'
  | logical l o r, logical l' o' r' => l.beq l' && o == o' && r.beq r'
  | set e n v, set e' n' v' => e.beq e' && n == n' && v.beq v'
  | unary o r, unary o' r' => o == o' && r.beq r'
  | var n, var n' => n == n'
  | _, _ => false

/-- Lists are equal if they are equally long and equal member by member. -/
def beqList : List Expr → List Expr → Bool
  | [], [] => true
  | e :: es, e' :: es' => e.beq e' && beqList es es'
  | _, _ => false

end

instance : BEq Expr := ⟨Expr.beq⟩

/-! ## Nodes and their order -/

/-- The name of a node's form. -/
def form : Expr → String
  | assign .. => "assign"
  | binary .. => "binary"
  | call .. => "call"
  | get .. => "get"
  | grouping .. => "grouping"
  | literal .. => "literal"
  | logical .. => "logical"
  | set .. => "set"
  | unary .. => "unary"
  | var .. => "variable"

mutual

/-- All nodes, each in front of the nodes below it and these from left to right. The target of an
assignment is a node too. -/
def nodes : Expr → List Expr
  | e@(assign target _ value) => e :: var target :: value.nodes
  | e@(binary left _ right) => e :: (left.nodes ++ right.nodes)
  | e@(call callee arguments) => e :: (callee.nodes ++ nodesOfList arguments)
  | e@(get object _) => e :: object.nodes
  | e@(grouping inner) => e :: inner.nodes
  | e@(literal _) => [e]
  | e@(logical left _ right) => e :: (left.nodes ++ right.nodes)
  | e@(set object _ value) => e :: (object.nodes ++ value.nodes)
  | e@(unary _ right) => e :: right.nodes
  | e@(var _) => [e]

/-- The nodes of each expression in turn. -/
def nodesOfList : List Expr → List Expr
  | [] => []
  | e :: es => e.nodes ++ nodesOfList es

end

end Expr

end Lox
