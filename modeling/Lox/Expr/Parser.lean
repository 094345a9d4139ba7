import Lox.Expr
import Lox.Expr.SyntaxError
import Lox.Token.Scan

/-!
# Reading an expression from tokens

This file holds the grammar, one function for each rule, from the one that binds tightest to the
one that binds loosest.

    expression  →  assignment
    assignment  →  ( call "." )? IDENTIFIER "=" assignment | disjunction
    disjunction →  conjunction ( "or" conjunction )*
    conjunction →  equality ( "and" equality )*
    equality    →  comparison ( ( "!=" | "==" ) comparison )*
    comparison  →  term ( ( ">" | ">=" | "<" | "<=" ) term )*
    term        →  factor ( ( "-" | "+" ) factor )*
    factor      →  unary ( ( "/" | "*" ) unary )*
    unary       →  ( "!" | "-" ) unary | call
    call        →  primary ( "(" arguments? ")" | "." IDENTIFIER )*
    primary     →  "true" | "false" | "nil" | NUMBER | STRING | IDENTIFIER | "(" expression ")"

A rule that leads back to a looser one, or to itself, does so one nesting level further in. Levels
are limited, so a rule takes what may stand inside it as an argument (`Level`), and the recursion
is on the number of levels that are left.
-/

namespace Lox

/-- A parser between two steps: the token it looks at, the tokens after it, and how many levels
are open. -/
structure Parser where
  current : Token
  ahead : Scan
  depth : Nat

/-- A step of a parser. A failed step leaves the parser as it was when the failure was found, with
the levels that were open then. -/
abbrev Parse := EStateM SyntaxError Parser

namespace Parser

/-- A parser at the first token of a text. -/
def start (text : String) : Except SyntaxError Parser :=
  match (Scan.ofText text).next with
  | (.ok token, ahead) => .ok ⟨token, ahead, 0⟩
  | (.error error, _) => .error (.lexical error)

end Parser

namespace Parse

/-! ## Single tokens -/

/-- Moves on and gives the token that was passed. If no token follows the parser does not move. -/
def advance : Parse Token := fun p =>
  match p.ahead.next with
  | (.ok token, ahead) => .ok p.current { p with current := token, ahead }
  | (.error error, ahead) => .error (.lexical error) { p with ahead }

/-- Passes a token of one of these kinds, if that is what stands there. -/
def accept? (kinds : List TokenKind) : Parse (Option Token) := do
  if (← get).current.kind ∈ kinds then return some (← advance) else return none

/-- Passes a token of the one kind that may stand here. -/
def expect (expected : Expectation) : Parse Token := do
  let found := (← get).current
  if found.kind = expected.kind then advance else throw (.unexpectedToken expected found)

/-! ## Repetition and nesting -/

/-- Extends an expression as long as `extend?` does, at most once for each token of a list. -/
def growOver (extend? : Expr → Parse (Option Expr)) : List Token → Expr → Parse Expr
  | [], e => return e
  | _ :: later, e => do
    match ← extend? e with
    | none => return e
    | some longer => growOver extend? later longer

/-- Extends an expression as long as `extend?` does. Each extension takes a token at least, so
there are no more of them than tokens are left. -/
def grow (extend? : Expr → Parse (Option Expr)) (e : Expr) : Parse Expr := do
  let p ← get
  growOver extend? (p.current :: p.ahead.tokens) e

/-- One of these operators and an operand behind an expression, which becomes the left side. -/
def operation? (operators : List TokenKind) (combine : Expr → Token → Expr → Expr)
    (operand : Parse Expr) (left : Expr) : Parse (Option Expr) := do
  match ← accept? operators with
  | none => return none
  | some operator => return some (combine left operator (← operand))

/-- Operands with operators between them, combined from the left. -/
def leftAssociative (operators : List TokenKind) (combine : Expr → Token → Expr → Expr)
    (operand : Parse Expr) : Parse Expr := do
  grow (operation? operators combine operand) (← operand)

/-- What may stand one nesting level further in. -/
structure Level where
  expression : Parse Expr
  operand : Parse Expr

/-- Reads a part that stands one level further in, behind a token on `line`. `inner` is that level,
or nothing if the limit is reached. -/
def nested {α : Type} (inner : Option Level) (line : Nat) (part : Level → Parse α) : Parse α :=
  match inner with
  | none => throw (.tooDeep line)
  | some level => do
    modify fun p => { p with depth := p.depth + 1 }
    let result ← part level
    modify fun p => { p with depth := p.depth - 1 }
    return result

/-! ## The rules -/

def primary (inner : Option Level) : Parse Expr := do
  let found := (← get).current
  match found.kind with
  | .trueWord | .falseWord | .nilWord | .number | .string =>
    return .literal ((← advance).literal.getD .nil)
  | .identifier => return .var (← advance)
  | .leftParen =>
    let opening ← advance
    let e ← nested inner opening.line (·.expression)
    let _ ← expect .closedGrouping
    return .grouping e
  | _ => throw (.expectedExpression found)

/-- One argument and those after it, of which there may be `room` together. -/
def argumentsUpTo (expression : Parse Expr) : (room : Nat) → Parse (List Expr)
  | 0 => do throw (.tooManyArguments (← get).current.line)
  | room + 1 => do
    let first ← expression
    match ← accept? [.comma] with
    | none => return [first]
    | some _ => return first :: (← argumentsUpTo expression room)

/-- What stands between the parentheses of a call. -/
def arguments (level : Level) : Parse (List Expr) := do
  if (← get).current.kind = .rightParen then return []
  else argumentsUpTo level.expression maxArguments

/-- A call of an expression, or the reading of a property of it. -/
def callOrGet? (inner : Option Level) (e : Expr) : Parse (Option Expr) := do
  if (← accept? [.leftParen]).isSome then
    let arguments ← nested inner (← get).current.line arguments
    let _ ← expect .closedArguments
    return some (.call e arguments)
  else if (← accept? [.dot]).isSome then
    return some (.get e (← expect .propertyName))
  else return none

def call (inner : Option Level) : Parse Expr := do
  grow (callOrGet? inner) (← primary inner)

def unary (inner : Option Level) : Parse Expr := do
  match ← accept? [.bang, .minus] with
  | some operator => return .unary operator (← nested inner operator.line (·.operand))
  | none => call inner

def factor (inner : Option Level) : Parse Expr :=
  leftAssociative [.slash, .star] .binary (unary inner)

def term (inner : Option Level) : Parse Expr :=
  leftAssociative [.minus, .plus] .binary (factor inner)

def comparison (inner : Option Level) : Parse Expr :=
  leftAssociative [.greater, .greaterEqual, .less, .lessEqual] .binary (term inner)

def equality (inner : Option Level) : Parse Expr :=
  leftAssociative [.bangEqual, .equalEqual] .binary (comparison inner)

def conjunction (inner : Option Level) : Parse Expr :=
  leftAssociative [.andWord] .logical (equality inner)

def disjunction (inner : Option Level) : Parse Expr :=
  leftAssociative [.orWord] .logical (conjunction inner)

/-- The left side is read as any other expression, and only then has to be something that can be
assigned to. A grouping cannot, whatever it holds. -/
def assignment (inner : Option Level) : Parse Expr := do
  let left ← disjunction inner
  match ← accept? [.equal] with
  | none => return left
  | some equals =>
    let value ← nested inner equals.line (·.expression)
    match left with
    | .var target => return .assign target equals value
    | .get object name => return .set object name value
    | _ => throw (.invalidAssignmentTarget equals.line)

/-! ## Whole expressions -/

/-- The level inside another, if `room` levels can still be opened. -/
def inside : (room : Nat) → Option Level
  | 0 => none
  | room + 1 =>
    let inner := inside room
    some ⟨assignment inner, unary inner⟩

/-- An expression, up to the first token that cannot continue it. -/
def expression : Parse Expr := do assignment (inside (maxNesting - (← get).depth))

/-- An expression and then the end of the text. -/
def whole : Parse Expr := do
  let e ← expression
  let _ ← expect .endOfExpression
  return e

end Parse

/-- The expression a text denotes. -/
def parse (text : String) : Except SyntaxError Expr := do
  match Parse.whole (← Parser.start text) with
  | .ok e _ => .ok e
  | .error error _ => .error error

/-! ## Several requests to one parser -/

/-- What a parser can be asked for. -/
inductive Request where
  | expression
  | whole
deriving DecidableEq, Repr

def Request.parse : Request → Parse Expr
  | expression => Parse.expression
  | whole => Parse.whole

namespace Parser

/-- The answer to a request, and the parser as the request leaves it, also after a failure. -/
def ask (p : Parser) (request : Request) : Except SyntaxError Expr × Parser :=
  match request.parse p with
  | .ok e p' => (.ok e, p')
  | .error error p' => (.error error, p')

/-- The answers to requests made one after the other. Each goes on where the one before it left the
parser. -/
def askAll (p : Parser) : List Request → List (Except SyntaxError Expr) × Parser
  | [] => ([], p)
  | request :: later =>
    let (answer, p') := p.ask request
    let (answers, p'') := p'.askAll later
    (answer :: answers, p'')

end Parser

end Lox
