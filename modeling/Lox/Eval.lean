import Lox.Environment
import Lox.Expr

/-!
# Evaluation

This file is about the object an expression evaluates to, and about what evaluation does to
variables and instances on the way.

Parts are evaluated from left to right, each in the memory that the one before it left, and the
first error ends the evaluation. What was done up to then stays done, so a step that fails leaves a
memory too.
-/

namespace Lox

/-! ## What evaluation works on -/

/-- What evaluation reads and changes: the variables, and the instances. The moment tells how many
functions of the host have been run so far. -/
structure Memory where
  globals : Environment
  heap : Heap
  moment : Nat
deriving Inhabited

/-- What a function of the host does with its arguments. It may read, change and make instances,
but sees no variables. -/
abbrev Behaviour := List Object → EStateM RuntimeError Heap Object

/-- The functions of the host: how each behaves at a moment, by its number, and the number of the
next one. A function that looks at the world outside may do something else at every moment. -/
structure Host where
  behaviour : (moment number : Nat) → Behaviour
  next : Nat

/-- A step of an evaluation. -/
abbrev Eval := EStateM RuntimeError Memory

namespace Eval

/-- The object bound to a variable. -/
def readVariable (name : Token) : Eval Object := fun m =>
  match m.globals.get name with
  | .ok object => .ok object m
  | .error error => .error error m

/-- Binds a variable anew. -/
def assignVariable (name : Token) (object : Object) : Eval Unit := fun m =>
  match m.globals.assign name object with
  | .ok globals => .ok () { m with globals }
  | .error error => .error error m

/-- Runs a function of the host. No other one is run at the same moment. -/
def run (host : Host) (f : NativeFunction) (arguments : List Object) : Eval Object := fun m =>
  match host.behaviour m.moment f.number arguments m.heap with
  | .ok object heap => .ok object { m with heap, moment := m.moment + 1 }
  | .error error heap => .error error { m with heap, moment := m.moment + 1 }

/-! ## Operators -/

/-- The error of a token that its node has no meaning for. -/
def unknownOperator (operator : Token) : RuntimeError :=
  .unknownOperator operator.lexeme operator.line

/-- An operation on two numbers. -/
def onNumbers (operator : Token) (left right : Object) (operation : Float → Float → Object) :
    Except RuntimeError Object :=
  match left.number?, right.number? with
  | some x, some y => .ok (operation x y)
  | _, _ => .error (.operandsNotNumbers operator.line)

/-- The sum of two numbers, or one string and then the other. -/
def add (operator : Token) : Object → Object → Except RuntimeError Object
  | .value (.number x), .value (.number y) => .ok (.number (x + y))
  | .value (.string s), .value (.string t) => .ok (.string (s ++ t))
  | _, _ => .error (.operandsNotAddable operator.line)

/-- An operator between two objects. -/
def binary (operator : Token) (left right : Object) : Except RuntimeError Object :=
  match operator.kind with
  | .plus => add operator left right
  | .minus => onNumbers operator left right fun x y => .number (x - y)
  | .star => onNumbers operator left right fun x y => .number (x * y)
  | .slash => onNumbers operator left right fun x y => .number (x / y)
  | .greater => onNumbers operator left right fun x y => .boolean (decide (y < x))
  | .greaterEqual => onNumbers operator left right fun x y => .boolean (decide (y ≤ x))
  | .less => onNumbers operator left right fun x y => .boolean (decide (x < y))
  | .lessEqual => onNumbers operator left right fun x y => .boolean (decide (x ≤ y))
  | .equalEqual => .ok (.boolean (left == right))
  | .bangEqual => .ok (.boolean (left != right))
  | _ => .error (unknownOperator operator)

/-- An operator in front of an object. -/
def unary (operator : Token) (operand : Object) : Except RuntimeError Object :=
  match operator.kind with
  | .minus =>
    match operand.number? with
    | some x => .ok (.number (-x))
    | none => .error (.operandNotNumber operator.line)
  | .bang => .ok (.boolean !operand.isTruthy)
  | _ => .error (unknownOperator operator)

/-- Whether the left side of `and` or `or` is the result, without a look at the right side. -/
def settles (operator : Token) (left : Object) : Except RuntimeError Bool :=
  match operator.kind with
  | .orWord => .ok left.isTruthy
  | .andWord => .ok !left.isTruthy
  | _ => .error (unknownOperator operator)

/-! ## Calls and properties -/

/-- Calls an object. Only a function can be called, and only with as many arguments as it takes;
both are checked when the arguments have been evaluated. -/
def call (host : Host) (line : Nat) (callee : Object) (arguments : List Object) : Eval Object :=
  match callee with
  | .function f =>
    if arguments.length = f.arity then run host f arguments
    else throw (.arityMismatch f.arity arguments.length line)
  | other => throw (.notCallable other.typeName line)

/-- Reads a property. -/
def getProperty (object : Object) (name : Token) : Eval Object := do
  match object with
  | .inst ref =>
    match (← get).heap.field? ref name.lexeme with
    | some contents => return contents
    | none => throw (.undefinedProperty name.lexeme name.line)
  | _ => throw (.noProperties name.line)

/-! ## Expressions -/

mutual

def expr (host : Host) : Expr → Eval Object
  | .assign target _ value => do
    let object ← expr host value
    assignVariable target object
    return object
  | .binary left operator right => do
    let first ← expr host left
    let second ← expr host right
    MonadExcept.ofExcept (binary operator first second)
  | .call callee arguments => do
    let function ← expr host callee
    let objects ← exprs host arguments
    call host (callee.line?.getD 0) function objects
  | .get object name => do
    getProperty (← expr host object) name
  | .grouping inner => expr host inner
  | .literal value => return .value value
  | .logical left operator right => do
    let first ← expr host left
    if ← MonadExcept.ofExcept (settles operator first) then return first
    else expr host right
  | .set object name value => do
    match ← expr host object with
    | .inst ref =>
      let contents ← expr host value
      modify fun m => { m with heap := m.heap.setField ref name.lexeme contents }
      return contents
    | _ => throw (.noFields name.line)
  | .unary operator right => do
    let operand ← expr host right
    MonadExcept.ofExcept (unary operator operand)
  | .var name => readVariable name

/-- The objects of several expressions, from left to right. -/
def exprs (host : Host) : List Expr → Eval (List Object)
  | [] => return []
  | e :: es => do
    let object ← expr host e
    return object :: (← exprs host es)

end

end Eval

end Lox
