import Lox.Expr

/-!
# The variables an expression refers to

This file is about finding every read and write of a variable without evaluating anything.
References are recorded in the order in which evaluation would come to them: the value of an
assignment before its target, a callee before its arguments. A reference inside the right side of an
operator that may skip that side is conditional, at any depth. Names of properties are no variables.
-/

namespace Lox

inductive Access where
  | read
  | write
deriving DecidableEq, Repr

/-- One read or write of a variable. -/
structure Reference where
  name : String
  line : Nat
  access : Access
  /-- Whether an evaluation without errors may pass the reference over. -/
  conditional : Bool
deriving DecidableEq, Repr

/-- A name outside the declared ones. -/
structure Undeclared where
  name : String
  line : Nat
deriving DecidableEq, Repr

def Undeclared.message (error : Undeclared) : String :=
  "[line " ++ toString error.line ++ "] Error at '" ++ error.name ++ "': Undefined variable '"
    ++ error.name ++ "'."

/-- The names that may be referred to: all of them, or those of a list. -/
inductive Scope where
  | anything
  | only (names : List String)
deriving DecidableEq, Repr

def Scope.declares : Scope → String → Bool
  | anything, _ => true
  | only names, name => names.contains name

/-- A step that records references and stops at a name its scope does not declare. What was
recorded before stays. -/
abbrev Resolve := EStateM Undeclared (List Reference)

namespace Resolve

/-- Records a reference to a name, behind those before it. -/
def record (scope : Scope) (conditional : Bool) (access : Access) (name : Token) :
    Resolve Unit := do
  if scope.declares name.lexeme then
    modify (· ++ [⟨name.lexeme, name.line, access, conditional⟩])
  else throw ⟨name.lexeme, name.line⟩

mutual

/-- Records the references of an expression. -/
def expr (scope : Scope) (conditional : Bool) : Expr → Resolve Unit
  | .assign target _ value => do
    expr scope conditional value
    record scope conditional .write target
  | .binary left _ right => do
    expr scope conditional left
    expr scope conditional right
  | .call callee arguments => do
    expr scope conditional callee
    exprs scope conditional arguments
  | .get object _ => expr scope conditional object
  | .grouping inner => expr scope conditional inner
  | .literal _ => return ()
  | .logical left _ right => do
    expr scope conditional left
    expr scope true right
  | .set object _ value => do
    expr scope conditional object
    expr scope conditional value
  | .unary _ right => expr scope conditional right
  | .var name => record scope conditional .read name

/-- Records the references of several expressions, from left to right. -/
def exprs (scope : Scope) (conditional : Bool) : List Expr → Resolve Unit
  | [] => return ()
  | e :: es => do
    expr scope conditional e
    exprs scope conditional es

end

end Resolve

/-! ## Resolving one expression after the other -/

/-- The references recorded so far, and the names that may be referred to. -/
structure Resolver where
  scope : Scope
  references : List Reference

namespace Resolver

/-- A resolver that has recorded nothing. -/
def start (scope : Scope) : Resolver := ⟨scope, []⟩

/-- Records the references of an expression, all of them or those before the first undeclared
name. -/
def resolve (r : Resolver) (e : Expr) : Except Undeclared Unit × Resolver :=
  match Resolve.expr r.scope false e r.references with
  | .ok _ references => (.ok (), { r with references })
  | .error error references => (.error error, { r with references })

end Resolver

end Lox
