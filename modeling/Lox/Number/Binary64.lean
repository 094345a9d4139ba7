/-!
# Doubles as whole multiples of the smallest one

A finite double, its sign apart, is a whole number of units of `2 ^ -1074`, the smallest positive
double. Doubles of one sign stand in one ascending row; the place of a double in that row, counted
from zero, is its *rank*, and the rank is what the lower 63 bits hold.

So `units` reads a rank as an exact value, `nearestRank` finds the rank closest to an exact
fraction, and nothing in between rounds. `nearestRank_units` says that the two fit together.
-/

namespace Lox.Number

/-! ## A double is a sign and a rank -/

/-- The weight of the sign among the bits of a double: all ranks lie below it. -/
def signWeight : Nat := 0x8000000000000000

/-- How many doubles there are from one power of two up to the next. -/
def binade : Nat := 0x10000000000000

/-- The place of a double among the doubles of its sign, counted from zero. -/
def rank (x : Float) : Nat := x.toBits.toNat % signWeight

/-- Whether the sign of a double is minus; the zero and the infinity below zero have it too. -/
def isNegative (x : Float) : Bool := decide (signWeight ≤ x.toBits.toNat)

/-- The rank of infinity, one above the largest finite double. -/
def infinityRank : Nat := 2047 * binade

/-- Neither infinite nor undefined. -/
def isFinite (x : Float) : Bool := decide (rank x < infinityRank)

/-- The double of a rank, without a minus sign. -/
def ofRank (r : Nat) : Float := Float.ofBits (UInt64.ofNat r)

/-! ## The value of a rank, in units -/

/-- How many doublings lie between the unit and the distance from a double to the next one. -/
def gap (r : Nat) : Nat := r / binade - 1

/-- The value of a rank as a whole number of units: its significand times the distance between
neighbours. -/
def units (r : Nat) : Nat := (r - gap r * binade) * Nat.pow 2 (gap r)

/-- The unit is one, halved this many times. -/
@[irreducible]
def halvings : Nat := 1074

/-- How many units make one. -/
def one : Nat := Nat.pow 2 halvings

theorem one_pos : 0 < one := Nat.two_pow_pos halvings

/-! ## The closest double to a fraction -/

/-- The whole number closest to a quotient; of two that are equally close, the even one. -/
def roundDiv (num den : Nat) : Nat :=
  let floor := num / den
  let rest := num % den
  if 2 * rest < den then floor
  else if den < 2 * rest then floor + 1
  else floor + floor % 2

/-- The gap that applies to values from `n` units up to the next power of two. -/
def gapOfUnits (n : Nat) : Nat := n.log2 - 52

/-- The rank closest to the fraction `num / den`; of two that are equally close, the one with an
even significand. What lies beyond the largest finite double by half a gap or more is infinite. -/
def nearestRank (num den : Nat) : Nat :=
  let scaled := num * one
  let g := gapOfUnits (scaled / den)
  min infinityRank (g * binade + roundDiv scaled (den * Nat.pow 2 g))

/-- The double closest to the fraction `num / den`. -/
def nearest (num den : Nat) : Float := ofRank (nearestRank num den)

/-! ## Special values -/

/-- Whether a finite double has no fractional part. -/
def isWhole (x : Float) : Bool := units (rank x) % one == 0

/-! ## Rounding an exact value gives its own rank -/

theorem roundDiv_mul {den : Nat} (pos : 0 < den) (n : Nat) : roundDiv (n * den) den = n := by
  simp [roundDiv, Nat.mul_div_cancel _ pos, Nat.mul_mod_left, pos]

theorem roundDiv_mul_right (num den : Nat) {k : Nat} (pos : 0 < k) :
    roundDiv (num * k) (den * k) = roundDiv num den := by
  simp only [roundDiv, Nat.mul_div_mul_right _ _ pos, Nat.mul_mod_mul_right, ← Nat.mul_assoc,
    Nat.mul_lt_mul_right pos]

/-- Only the quotient counts, not how it is written. -/
theorem nearestRank_mul_right (num den : Nat) {k : Nat} (pos : 0 < k) :
    nearestRank (num * k) (den * k) = nearestRank num den := by
  have scaled : num * k * one = num * one * k := Nat.mul_right_comm ..
  have step (g : Nat) : den * k * Nat.pow 2 g = den * Nat.pow 2 g * k := Nat.mul_right_comm ..
  simp only [nearestRank, scaled, step, Nat.mul_div_mul_right _ _ pos, roundDiv_mul_right _ _ pos]

/-- A significand between two powers of two, doubled `g` times, has `g` as its gap. -/
theorem gapOfUnits_mul {m : Nat} (g : Nat) (low : binade ≤ m) (high : m < 2 * binade) :
    gapOfUnits (m * Nat.pow 2 g) = g := by
  have pos : 0 < Nat.pow 2 g := Nat.two_pow_pos g
  have nonzero : m * Nat.pow 2 g ≠ 0 :=
    Nat.mul_ne_zero (Nat.ne_of_gt (Nat.lt_of_lt_of_le (by decide) low)) (Nat.ne_of_gt pos)
  have : (m * Nat.pow 2 g).log2 = 52 + g := by
    rw [Nat.log2_eq_iff nonzero, Nat.pow_succ, Nat.pow_add, Nat.mul_right_comm]
    exact ⟨Nat.mul_le_mul_right _ low, Nat.mul_lt_mul_of_pos_right (Nat.mul_comm _ 2 ▸ high) pos⟩
  rw [gapOfUnits, this, Nat.add_sub_cancel_left]

/-- The gap found from a value is the one its rank has. -/
theorem gapOfUnits_units (r : Nat) : gapOfUnits (units r) = gap r := by
  by_cases small : r < 2 * binade
  · have none : gap r = 0 := by unfold gap binade at *; omega
    have value : units r = r := by simp [units, none]
    rw [value, none]
    by_cases zero : r = 0
    · subst zero; rfl
    · have := (Nat.log2_lt zero).mpr (show r < Nat.pow 2 53 from small)
      unfold gapOfUnits; omega
  · exact gapOfUnits_mul _ (by unfold gap binade at *; omega) (by unfold gap binade at *; omega)

/-- The exact value of a finite double is closest to that double. -/
theorem nearestRank_units {r : Nat} (finite : r < infinityRank) :
    nearestRank (units r) one = r := by
  have round : roundDiv (units r * one) (one * Nat.pow 2 (gap r)) = r - gap r * binade := by
    rw [Nat.mul_comm one, roundDiv_mul_right _ _ one_pos]
    exact roundDiv_mul (Nat.two_pow_pos _) _
  have enough : gap r * binade ≤ r := by unfold gap binade; omega
  simp only [nearestRank, Nat.mul_div_cancel _ one_pos, gapOfUnits_units, round]
  omega

example : nearest 1 1 = 1.0 ∧ nearest 1 10 = 0.1 ∧ units (rank 3.0) = 3 * one := by decide +kernel

end Lox.Number
