import Lox.Number.Binary64

/-!
# The fewest digits that read back

This file is about the shortest decimal that reads back as a given double, and about its text.

A double is not only a multiple of `2 ^ -1074` but also one of `10 ^ -1074`, so a decimal is held as
a whole number of such *crumbs*, and the decimals of `n` significant digits near a double are the
multiples of a power of ten. The search tries one digit, then two, and stops at the first count for
which a neighbour of the double on that grid reads back as the double.
-/

namespace Lox.Number

/-- How many crumbs make one. -/
def crumbs : Nat := Nat.pow 10 halvings

/-- How many crumbs make one unit. -/
def crumbsPerUnit : Nat := Nat.pow 5 halvings

/-- The exact value of a rank in crumbs. -/
def inCrumbs (r : Nat) : Nat := units r * crumbsPerUnit

/-- Whether a decimal, given in crumbs, reads back as the double of rank `r`. -/
def readsBack (r decimal : Nat) : Bool := nearestRank decimal crumbs == r

/-- Of the multiples of `step` next to a double, the closest that reads back as it. If both are
equally close, the one whose last digit is even. -/
def onGrid? (r step : Nat) : Option Nat :=
  let value := inCrumbs r
  let below := value / step * step
  let above := below + step
  let nearBelow := decide (2 * value < below + above) ||
    (decide (2 * value = below + above) && value / step % 2 == 0)
  (if nearBelow then [below, above] else [above, below]).find? (readsBack r)

/-- Of the decimals near the double of rank `r`, whose exact value has `length` digits, one with
the fewest significant digits that reads back as it. Seventeen digits always do; the exact value
stands in for the case that cannot arise. -/
def fewestDigits (r length : Nat) : Nat :=
  ((List.range 17).findSome? fun n => onGrid? r (Nat.pow 10 (length - (n + 1)))).getD (inCrumbs r)

/-- The decimal with the fewest digits that reads back as the double of rank `r`. -/
def shortest (r : Nat) : Nat := fewestDigits r (Nat.toDigits 10 (inCrumbs r)).length

/-! ## What is found reads back -/

theorem crumbs_eq : crumbs = one * crumbsPerUnit := Nat.mul_pow 2 5 halvings

theorem crumbsPerUnit_pos : 0 < crumbsPerUnit := Nat.pow_pos (by decide)

theorem readsBack_inCrumbs {r : Nat} (finite : r < infinityRank) :
    readsBack r (inCrumbs r) = true := by
  rw [readsBack, inCrumbs, crumbs_eq, nearestRank_mul_right _ _ crumbsPerUnit_pos,
    nearestRank_units finite, beq_self_eq_true]

theorem readsBack_of_onGrid? {r step decimal : Nat} (found : onGrid? r step = some decimal) :
    readsBack r decimal = true := by
  unfold onGrid? at found
  exact List.find?_some (p := readsBack r) found

theorem readsBack_fewestDigits {r : Nat} (finite : r < infinityRank) (length : Nat) :
    readsBack r (fewestDigits r length) = true := by
  unfold fewestDigits
  cases found : (List.range 17).findSome? fun n => onGrid? r (Nat.pow 10 (length - (n + 1))) with
  | none => rw [Option.getD_none, readsBack_inCrumbs finite]
  | some decimal =>
    obtain ⟨n, _, on⟩ := List.exists_of_findSome?_eq_some found
    rw [Option.getD_some, readsBack_of_onGrid? on]

/-- The shortest decimal of a finite double reads back as that double. -/
theorem readsBack_shortest {r : Nat} (finite : r < infinityRank) :
    readsBack r (shortest r) = true := readsBack_fewestDigits finite _

/-! ## The text of a decimal -/

/-- Which numbers are written without an exponent: those whose point stands, counted from in front
of the first significant digit, from `least` to `greatest`. -/
structure PointRange where
  least : Int
  greatest : Int

/-- A string of digits without the zeros at its end. -/
def dropTrailingZeros (digits : List Char) : List Char :=
  (digits.reverse.dropWhile (· == '0')).reverse

/-- Digits with the point after the first `point` of them, and at least one digit on each side. -/
def positionalText (digits : List Char) (point : Int) : String :=
  if point ≤ 0 then
    "0." ++ String.ofList (List.replicate point.natAbs '0' ++ digits)
  else
    let before := digits.take point.toNat
    let after := digits.drop point.toNat
    String.ofList (before ++ List.replicate (point.toNat - digits.length) '0') ++ "."
      ++ String.ofList (if after.isEmpty then ['0'] else after)

/-- Digits with the point after the first of them, if more follow, and a signed exponent. -/
def exponentText (digits : List Char) (exponent : Int) : String :=
  String.ofList (digits.take 1)
    ++ (if digits.length ≤ 1 then "" else "." ++ String.ofList (digits.drop 1))
    ++ "e" ++ (if exponent < 0 then "-" else "+")
    ++ String.ofList (Nat.toDigits 10 exponent.natAbs)

/-- The text of a decimal given in crumbs. -/
def decimalText (range : PointRange) (decimal : Nat) : String :=
  if decimal = 0 then "0.0"
  else
    let all := Nat.toDigits 10 decimal
    let digits := dropTrailingZeros all
    let point : Int := all.length - halvings
    if range.least ≤ point ∧ point ≤ range.greatest then positionalText digits point
    else exponentText digits (point - 1)

/-- A finite number in the fewest digits that read back as it. -/
def shortestText (range : PointRange) (x : Float) : String :=
  (if isNegative x then "-" else "") ++ decimalText range (shortest (rank x))

end Lox.Number
