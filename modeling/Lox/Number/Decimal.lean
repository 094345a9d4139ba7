import Lox.Number.Binary64

/-!
# Numbers as decimal text

This file is about the decimal digits a number is read from, and about its text with a fixed count
of decimal places. Both go through exact fractions, so each rounds only once: reading to the closest
double, writing to the closest decimal.
-/

namespace Lox.Number

/-- The number written as `whole.fraction`, both strings of decimal digits. -/
def ofDigits (whole fraction : List Char) : Float :=
  nearest (Nat.ofDigitChars 10 (whole ++ fraction) 0) (Nat.pow 10 fraction.length)

/-- The decimal digits of `n`, with zeros in front up to `width`. -/
def padded (width n : Nat) : List Char :=
  let digits := Nat.toDigits 10 n
  List.replicate (width - digits.length) '0' ++ digits

/-- The minus sign of a number, if it has one. -/
def sign (x : Float) : String := if isNegative x then "-" else ""

/-- A finite number without a fractional part, as all its digits. -/
def wholeText (x : Float) : String :=
  sign x ++ String.ofList (Nat.toDigits 10 (units (rank x) / one))

/-- A finite number with exactly `places` digits after the point, at least one. The exact value is
rounded to the closest such decimal; a value halfway between two goes to the even digit. -/
def fixedText (places : Nat) (x : Float) : String :=
  let scale := Nat.pow 10 places
  let scaled := roundDiv (units (rank x) * scale) one
  sign x ++ String.ofList (Nat.toDigits 10 (scaled / scale)) ++ "."
    ++ String.ofList (padded places (scaled % scale))

end Lox.Number
