/-!
# Why an expression has no value

This file lists the causes of a failed evaluation, with their messages. All but one carry the line
of the token at fault; the host gives the text of its own errors.
-/

namespace Lox

inductive RuntimeError where
  | undefinedVariable (name : String) (line : Nat)
  /-- A sign in front of something that is no number. -/
  | operandNotNumber (line : Nat)
  | operandsNotNumbers (line : Nat)
  /-- A sum of anything but two numbers or two strings. -/
  | operandsNotAddable (line : Nat)
  | notCallable (typeName : String) (line : Nat)
  | arityMismatch (expected given : Nat) (line : Nat)
  /-- A property read from something that is no instance. -/
  | noProperties (line : Nat)
  /-- A property set on something that is no instance. -/
  | noFields (line : Nat)
  | undefinedProperty (name : String) (line : Nat)
  /-- An operator token that its node has no meaning for. No text denotes such a node. -/
  | unknownOperator (lexeme : String) (line : Nat)
  /-- A failure inside a function of the host. -/
  | native (text : String)
deriving DecidableEq, Repr

namespace RuntimeError

/-- The line of the token at fault. -/
def line? : RuntimeError → Option Nat
  | undefinedVariable _ line => some line
  | operandNotNumber line => some line
  | operandsNotNumbers line => some line
  | operandsNotAddable line => some line
  | notCallable _ line => some line
  | arityMismatch _ _ line => some line
  | noProperties line => some line
  | noFields line => some line
  | undefinedProperty _ line => some line
  | unknownOperator _ line => some line
  | native _ => none

/-- What went wrong, without the line. -/
def text : RuntimeError → String
  | undefinedVariable name _ => "Undefined variable '" ++ name ++ "'."
  | operandNotNumber _ => "Operand must be a number."
  | operandsNotNumbers _ => "Operands must be numbers."
  | operandsNotAddable _ => "Operands must be two numbers or two strings."
  | notCallable typeName _ => "Can only call functions and classes, got " ++ typeName ++ "."
  | arityMismatch expected given _ =>
    "Expected " ++ toString expected ++ " arguments but got " ++ toString given ++ "."
  | noProperties _ => "Only instances have properties."
  | noFields _ => "Only instances have fields."
  | undefinedProperty name _ => "Undefined property '" ++ name ++ "'."
  | unknownOperator lexeme _ => "Unknown operator '" ++ lexeme ++ "'."
  | native text => text

def message (error : RuntimeError) : String :=
  match error.line? with
  | some line => "[line " ++ toString line ++ "] " ++ error.text
  | none => error.text

end RuntimeError

end Lox
