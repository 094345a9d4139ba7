/-!
# Sets of characters as lists of code point ranges

A standard gives a property of characters as a table. Here a table is a list of closed ranges of
code points in ascending order, and a look-up stops at the first range that does not lie wholly
below the character.
-/

namespace Lox.Text

/-- Closed ranges of code points, each given by its first and its last member. -/
abbrev Ranges := List (Nat × Nat)

namespace Ranges

/-- Whether a code point lies in one of the ranges, which stand in ascending order. -/
def holds : Ranges → Nat → Bool
  | [], _ => false
  | (first, last) :: rest, point =>
    if point ≤ last then decide (first ≤ point) else holds rest point

/-- The ranges are well formed, apart from each other, and ascend from `floor` on. -/
def ascends (floor : Nat) : Ranges → Bool
  | [] => true
  | (first, last) :: rest => floor ≤ first && first ≤ last && ascends (last + 1) rest

/-- How many code points the ranges hold together. -/
def count : Ranges → Nat
  | [] => 0
  | (first, last) :: rest => (last + 1 - first) + count rest

/-! ## In an ascending table the look-up is membership -/

theorem holds_eq_false_of_lt {ranges : Ranges} {floor point : Nat}
    (ordered : ranges.ascends floor = true) (below : point < floor) :
    ranges.holds point = false := by
  cases ranges with
  | nil => rfl
  | cons range rest =>
    obtain ⟨first, last⟩ := range
    simp only [ascends, Bool.and_eq_true, decide_eq_true_eq] at ordered
    have : point ≤ last := by omega
    simp only [holds, this, if_true, decide_eq_false_iff_not]
    omega

theorem holds_iff {ranges : Ranges} {floor : Nat} (ordered : ranges.ascends floor = true)
    (point : Nat) :
    ranges.holds point = true ↔ ∃ range ∈ ranges, range.1 ≤ point ∧ point ≤ range.2 := by
  induction ranges generalizing floor with
  | nil => simp [holds]
  | cons range rest ih =>
    obtain ⟨first, last⟩ := range
    simp only [ascends, Bool.and_eq_true, decide_eq_true_eq] at ordered
    by_cases inside : point ≤ last
    · have above := holds_eq_false_of_lt ordered.2 (Nat.lt_succ_of_le inside)
      simp only [holds, inside, if_true, decide_eq_true_eq, List.mem_cons]
      constructor
      · exact fun low => ⟨_, .inl rfl, low, inside⟩
      · rintro ⟨other, rfl | member, low, high⟩
        · exact low
        · have := (ih ordered.2).mpr ⟨other, member, low, high⟩
          simp [above] at this
    · simp only [holds, inside, if_false, ih ordered.2, List.mem_cons]
      constructor
      · rintro ⟨other, member, bounds⟩
        exact ⟨other, .inr member, bounds⟩
      · rintro ⟨other, rfl | member, low, high⟩
        · exact absurd high inside
        · exact ⟨other, member, low, high⟩

end Ranges

end Lox.Text
