import Lox.Expr.Parser

/-!
# A parser that is watched

How many levels are open while a parser reads? What it leaves at the end does not tell, so the
parser is set out a second time here, with a list beside it. All that changes a parser is a move to
the next token, a way down into a level, and the way up out of it again. Each of them is noted with
the number of levels that are open just before it.

The limit is looked at here where a level is opened, with the number of open levels, and the way out
takes one off whatever it finds. So it is not built in that there is a level to come out of. Nothing
else is different: the rules are those of `Lox.Parse`, and the two are compared where the list is
put to use.
-/

namespace Lox

/-- What changes a parser. -/
inductive Act where
  | advance
  | descend
  | ascend
deriving DecidableEq, Repr

/-- How many levels are open behind it. -/
def Act.depthAfter : Act → Nat → Nat
  | advance, depth => depth
  | descend, depth => depth + 1
  | ascend, depth => depth - 1

/-- Something that a parser does, and how many levels are open just before it. -/
structure Moment where
  act : Act
  depth : Nat
deriving DecidableEq, Repr

/-- A parser, and all that it has done. -/
structure Watched where
  parser : Parser
  seen : List Moment

/-- A step of a parser that is watched. -/
abbrev Watch := EStateM SyntaxError Watched

namespace Watch

variable {α : Type}

/-- A step that is noted. -/
def noted (act : Act) (step : Parse α) : Watch α := fun w =>
  let seen := w.seen ++ [⟨act, w.parser.depth⟩]
  match step w.parser with
  | .ok a p => .ok a ⟨p, seen⟩
  | .error error p => .error error ⟨p, seen⟩

/-- What the parser has come to. -/
def look : Watch Parser := do return (← get).parser

/-! ## Single tokens -/

def advance : Watch Token := noted .advance Parse.advance

def accept? (kinds : List TokenKind) : Watch (Option Token) := do
  if (← look).current.kind ∈ kinds then return some (← advance) else return none

def expect (expected : Expectation) : Watch Token := do
  let found := (← look).current
  if found.kind = expected.kind then advance else throw (.unexpectedToken expected found)

/-! ## Repetition and nesting -/

def growOver (extend? : Expr → Watch (Option Expr)) : List Token → Expr → Watch Expr
  | [], e => return e
  | _ :: later, e => do
    match ← extend? e with
    | none => return e
    | some longer => growOver extend? later longer

def grow (extend? : Expr → Watch (Option Expr)) (e : Expr) : Watch Expr := do
  let p ← look
  growOver extend? (p.current :: p.ahead.tokens) e

def operation? (operators : List TokenKind) (combine : Expr → Token → Expr → Expr)
    (operand : Watch Expr) (left : Expr) : Watch (Option Expr) := do
  match ← accept? operators with
  | none => return none
  | some operator => return some (combine left operator (← operand))

def leftAssociative (operators : List TokenKind) (combine : Expr → Token → Expr → Expr)
    (operand : Watch Expr) : Watch Expr := do
  grow (operation? operators combine operand) (← operand)

/-- Opens a level, behind a token on `line`. -/
def descend (line : Nat) : Watch Unit := do
  if maxNesting ≤ (← look).depth then throw (.tooDeep line)
  noted .descend (modify fun p => { p with depth := p.depth + 1 })

/-- Closes a level. -/
def ascend : Watch Unit := noted .ascend (modify fun p => { p with depth := p.depth - 1 })

structure Level where
  expression : Watch Expr
  operand : Watch Expr

/-- Reads a part that stands one level further in. -/
def nested (inner : Option Level) (line : Nat) (part : Level → Watch α) : Watch α := do
  descend line
  match inner with
  | none => throw (.tooDeep line)
  | some level =>
    let result ← part level
    ascend
    return result

/-! ## The rules -/

def primary (inner : Option Level) : Watch Expr := do
  let found := (← look).current
  match found.kind with
  | .trueWord | .falseWord | .nilWord | .number | .string =>
    return .literal ((← advance).literal.getD .nil)
  | .identifier => return .var (← advance)
  | .leftParen =>
    let opening ← advance
    let e ← nested inner opening.line (·.expression)
    let _ ← expect .closedGrouping
    return .grouping e
  | _ => throw (.expectedExpression found)

def argumentsUpTo (expression : Watch Expr) : (room : Nat) → Watch (List Expr)
  | 0 => do throw (.tooManyArguments (← look).current.line)
  | room + 1 => do
    let first ← expression
    match ← accept? [.comma] with
    | none => return [first]
    | some _ => return first :: (← argumentsUpTo expression room)

def arguments (level : Level) : Watch (List Expr) := do
  if (← look).current.kind = .rightParen then return []
  else argumentsUpTo level.expression maxArguments

def callOrGet? (inner : Option Level) (e : Expr) : Watch (Option Expr) := do
  if (← accept? [.leftParen]).isSome then
    let arguments ← nested inner (← look).current.line arguments
    let _ ← expect .closedArguments
    return some (.call e arguments)
  else if (← accept? [.dot]).isSome then
    return some (.get e (← expect .propertyName))
  else return none

def call (inner : Option Level) : Watch Expr := do
  grow (callOrGet? inner) (← primary inner)

def unary (inner : Option Level) : Watch Expr := do
  match ← accept? [.bang, .minus] with
  | some operator => return .unary operator (← nested inner operator.line (·.operand))
  | none => call inner

def factor (inner : Option Level) : Watch Expr :=
  leftAssociative [.slash, .star] .binary (unary inner)

def term (inner : Option Level) : Watch Expr :=
  leftAssociative [.minus, .plus] .binary (factor inner)

def comparison (inner : Option Level) : Watch Expr :=
  leftAssociative [.greater, .greaterEqual, .less, .lessEqual] .binary (term inner)

def equality (inner : Option Level) : Watch Expr :=
  leftAssociative [.bangEqual, .equalEqual] .binary (comparison inner)

def conjunction (inner : Option Level) : Watch Expr :=
  leftAssociative [.andWord] .logical (equality inner)

def disjunction (inner : Option Level) : Watch Expr :=
  leftAssociative [.orWord] .logical (conjunction inner)

def assignment (inner : Option Level) : Watch Expr := do
  let left ← disjunction inner
  match ← accept? [.equal] with
  | none => return left
  | some equals =>
    let value ← nested inner equals.line (·.expression)
    match left with
    | .var target => return .assign target equals value
    | .get object name => return .set object name value
    | _ => throw (.invalidAssignmentTarget equals.line)

/-! ## Whole expressions -/

def inside : (room : Nat) → Option Level
  | 0 => none
  | room + 1 =>
    let inner := inside room
    some ⟨assignment inner, unary inner⟩

def expression : Watch Expr := do assignment (inside (maxNesting - (← look).depth))

def whole : Watch Expr := do
  let e ← expression
  let _ ← expect .endOfExpression
  return e

end Watch

/-! ## Several requests -/

def Request.watch : Request → Watch Expr
  | expression => Watch.expression
  | whole => Watch.whole

namespace Watched

/-- The answer to a request, and the watched parser as the request leaves it. -/
def ask (w : Watched) (request : Request) : Except SyntaxError Expr × Watched :=
  match request.watch w with
  | .ok e w' => (.ok e, w')
  | .error error w' => (.error error, w')

/-- The answers to requests made one after the other. -/
def askAll (w : Watched) : List Request → List (Except SyntaxError Expr) × Watched
  | [] => ([], w)
  | request :: later =>
    let (answer, w') := w.ask request
    let (answers, w'') := w'.askAll later
    (answer :: answers, w'')

end Watched

end Lox
