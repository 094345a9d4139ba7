import Mathlib
import Lox.Number.Decimal

/-!
# Doubles by sign and rank

A double is given by its sign and its rank, so it is known when both are. Equality of numbers is not
quite the same: it does not tell the two zeros apart, and no undefined number is equal to anything
(`beq_iff`). Numbers that are read from digits have no minus sign, so a zero among them is always
the same.
-/

namespace Lox.Number

/-- The bits of a double are its rank and its sign. -/
theorem toNat_toBits (x : Float) :
    x.toBits.toNat = rank x + if isNegative x then signWeight else 0 := by
  have hbound := x.toBits.toNat_lt
  unfold rank isNegative
  by_cases hneg : signWeight ≤ x.toBits.toNat
  · rw [if_pos (decide_eq_true hneg)]
    unfold signWeight at *
    omega
  · rw [if_neg (fun h => hneg (of_decide_eq_true h))]
    unfold signWeight at *
    omega

theorem eq_of_rank_eq {x y : Float} (hrank : rank x = rank y)
    (hsign : isNegative x = isNegative y) : x = y := by
  refine Float.toBits_inj.mp (UInt64.toNat_inj.mp ?_)
  rw [toNat_toBits, toNat_toBits, hrank, hsign]

/-- Bits are kept, but for those of an undefined number, of which one stands for all. -/
theorem toBits_ofBits (bits : UInt64) :
    (Float.ofBits bits).toBits = bits ∨ (Float.ofBits bits).toBits = Float.nan.toBits := by
  have hpack := @Float.Model.UnpackedFloat.pack_unpack .binary64 bits.toBitVec (by decide)
  split at hpack
  · exact Or.inr (UInt64.toBitVec_inj.mp hpack)
  · exact Or.inl (UInt64.toBitVec_inj.mp hpack)

/-- The double of a rank has no minus sign. -/
theorem isNegative_ofRank {r : Nat} (h : r < signWeight) : isNegative (ofRank r) = false := by
  unfold isNegative ofRank
  refine decide_eq_false (Nat.not_le.mpr ?_)
  rcases toBits_ofBits (UInt64.ofNat r) with hbits | hbits
  · rw [hbits]
    exact Nat.lt_of_le_of_lt (Nat.mod_le _ _) h
  · rw [hbits]
    decide +kernel

/-- A number that is read from digits has no minus sign. -/
theorem isNegative_ofDigits (whole fraction : List Char) :
    isNegative (ofDigits whole fraction) = false :=
  isNegative_ofRank (Nat.lt_of_le_of_lt (Nat.min_le_left _ _) (by decide))

theorem ne_nan_of_isFinite {x : Float} (h : isFinite x = true) : x ≠ Float.nan := by
  rintro rfl
  exact absurd h (by decide +kernel)

/-! ## Equal numbers -/

/-- One of the two zeros. -/
def IsZero (x : Float) : Prop := x = 0.0 ∨ x = -0.0

/-- Numbers are equal if they are defined and the same, or both zero. -/
theorem beq_iff {x y : Float} :
    (x == y) = true ↔ x ≠ Float.nan ∧ y ≠ Float.nan ∧ (x = y ∨ IsZero x ∧ IsZero y) := by
  rw [Float.beq_iff_ne_nan_and_eq]
  refine and_congr_right fun _ => and_congr_right fun _ => ?_
  constructor
  · intro h
    rcases h with rfl | ⟨rfl, rfl⟩ | ⟨rfl, rfl⟩
    · exact Or.inl rfl
    · exact Or.inr ⟨Or.inl rfl, Or.inr rfl⟩
    · exact Or.inr ⟨Or.inr rfl, Or.inl rfl⟩
  · intro h
    rcases h with rfl | ⟨rfl | rfl, rfl | rfl⟩
    · exact Or.inl rfl
    · exact Or.inl rfl
    · exact Or.inr (Or.inl ⟨rfl, rfl⟩)
    · exact Or.inr (Or.inr ⟨rfl, rfl⟩)
    · exact Or.inl rfl

instance instPartialEquivBEqFloat : PartialEquivBEq Float where
  symm h := by
    obtain ⟨hx, hy, hsame⟩ := beq_iff.mp h
    exact beq_iff.mpr ⟨hy, hx, hsame.imp Eq.symm And.symm⟩
  trans h h' := by
    obtain ⟨hx, _, hsame⟩ := beq_iff.mp h
    obtain ⟨_, hz, hsame'⟩ := beq_iff.mp h'
    refine beq_iff.mpr ⟨hx, hz, ?_⟩
    rcases hsame with rfl | ⟨hzero, hzero'⟩
    · exact hsame'
    · rcases hsame' with rfl | ⟨_, hzero''⟩
      · exact Or.inr ⟨hzero, hzero'⟩
      · exact Or.inr ⟨hzero, hzero''⟩

end Lox.Number
