import Lox.Number.Decimal

/-!
# Values

These are the values that a literal can have, and the text that each is shown as. There is one kind
of number, the double. Equality is that of the numbers themselves, so it is neither reflexive (an
undefined number differs from itself) nor finer than arithmetic (the two zeros are equal).
-/

namespace Lox

inductive Value where
  | nil
  | boolean (b : Bool)
  | number (x : Float)
  | string (text : String)
deriving Inhabited

namespace Value

protected def beq : Value → Value → Bool
  | nil, nil => true
  | boolean a, boolean b => a == b
  | number x, number y => x == y
  | string s, string t => s == t
  | _, _ => false

instance : BEq Value := ⟨Value.beq⟩

/-- Only `nil` and `false` count as false in a condition. -/
def isTruthy : Value → Bool
  | nil => false
  | boolean b => b
  | number _ | string _ => true

/-- The name of a value's type, for diagnostics. -/
def typeName : Value → String
  | nil => "nil"
  | boolean _ => "boolean"
  | number _ => "number"
  | string _ => "string"

end Value

namespace Number

/-- The digits after the point of a number that is not whole. -/
def places : Nat := 6

/-- The text of a number that is infinite or undefined. -/
def specialText (x : Float) : String :=
  if rank x = infinityRank then sign x ++ "inf" else "NaN"

/-- A whole number is written with all its digits and no point, zero without its sign, and any
other finite number with six places. -/
def text (x : Float) : String :=
  if isFinite x then
    if rank x = 0 then "0" else if isWhole x then wholeText x else fixedText places x
  else specialText x

example : text 1e15 = "1000000000000000" ∧ text (-0.0) = "0" ∧ text (-2.0) = "-2" ∧
    text 0.1 = "0.100000" ∧ text (1.0 / 0.0) = "inf" := by decide +kernel

end Number

/-- The text of a value; a string is its own text, without quotes. -/
def Value.text : Value → String
  | nil => "nil"
  | boolean b => if b then "true" else "false"
  | number x => Number.text x
  | string s => s

end Lox
