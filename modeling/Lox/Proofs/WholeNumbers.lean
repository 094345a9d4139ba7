import Lox.Proofs.Equality
import Lox.Proofs.Respelling
import Lox.Proofs.VisibleStructure

/-!
# Whole numbers are written so that they can be read

A whole number is written with all its digits, up to 309 of them. Most numbers with so many digits
are no doubles, and a reader takes the closest one instead. But digits that were written from a
double are exact, and to its own exact value a double is the closest (`nearestRank_units`). So a
lexer makes one token of the digits, and its value is the number that was written.
-/

namespace Lox.Number

open Float.Model (Format UnpackedFloat)
open Float.Model.UnpackedFloat (Sign unpackExponent unpackMantissa unpackSign)

/-! ## Numbers that are not below zero -/

section

variable {bits : BitVec Format.binary64.numBits}

theorem toNat_unpackSign : (unpackSign bits).toNat = bits.toNat / signWeight := by
  have hbound : bits.toNat < 2 ^ 64 := bits.isLt
  simp [unpackSign, BitVec.extractLsb, signWeight, Nat.shiftRight_eq_div_pow]
  omega

theorem toNat_unpackExponent : (unpackExponent bits).toNat = bits.toNat / binade % 2048 := by
  simp [unpackExponent, BitVec.extractLsb, binade, Nat.shiftRight_eq_div_pow]

theorem toNat_unpackMantissa : (unpackMantissa bits).toNat = bits.toNat % binade := by
  simp [unpackMantissa, BitVec.extractLsb, binade, Nat.shiftRight_eq_div_pow]

end

variable {x y : Float}

/-- A minus sign is found as such in the bits. -/
theorem ofBitVec_unpackSign (h : isNegative x = true) :
    Sign.ofBitVec (@unpackSign Format.binary64 x.toBits.toBitVec) = .negative := by
  have hle : signWeight ≤ x.toBits.toBitVec.toNat := of_decide_eq_true h
  refine if_neg fun hzero => ?_
  have hquotient : x.toBits.toBitVec.toNat / signWeight = 0 :=
    toNat_unpackSign.symm.trans (congrArg BitVec.toNat hzero)
  exact absurd (Nat.div_pos hle (by decide)) (by rw [hquotient]; decide)

/-- Without exponent and mantissa, a double is a zero. -/
theorem rank_eq_zero
    (hexponent : @unpackExponent Format.binary64 x.toBits.toBitVec = 0#_)
    (hmantissa : @unpackMantissa Format.binary64 x.toBits.toBitVec = 0#_) :
    rank x = 0 := by
  have hhigh : x.toBits.toNat / binade % 2048 = 0 :=
    toNat_unpackExponent.symm.trans (congrArg BitVec.toNat hexponent)
  have hlow : x.toBits.toNat % binade = 0 :=
    toNat_unpackMantissa.symm.trans (congrArg BitVec.toNat hmantissa)
  unfold rank signWeight
  unfold binade at hhigh hlow
  omega

/-- Of the numbers with a minus sign, only a zero is not below zero. -/
theorem eq_zero_of_nonneg (h : 0 ≤ x) (hsign : isNegative x = true) : x = -0.0 := by
  have hle : (UnpackedFloat.zero .positive).le
      (UnpackedFloat.unpack Format.binary64 x.toBits.toBitVec) = true := of_decide_eq_true h
  rw [UnpackedFloat.unpack] at hle
  dsimp only at hle
  rw [ofBitVec_unpackSign hsign] at hle
  -- of an undefined number, an infinite one and one with digits, none is above zero
  split at hle
  · split at hle <;> cases hle
  · split at hle
    · split at hle
      · rename_i hexponent hmantissa
        refine eq_of_rank_eq ((rank_eq_zero hexponent hmantissa).trans ?_) (hsign.trans ?_)
        · decide +kernel
        · decide +kernel
      · cases hle
    · cases hle

theorem isZero_of_rank (h : rank x = 0) : IsZero x := by
  have hzeros : rank 0.0 = 0 ∧ rank (-0.0) = 0 := by decide +kernel
  cases hsign : isNegative x with
  | false => exact Or.inl (eq_of_rank_eq (h.trans hzeros.1.symm) (hsign.trans (by decide +kernel)))
  | true => exact Or.inr (eq_of_rank_eq (h.trans hzeros.2.symm) (hsign.trans (by decide +kernel)))

/-! ## The digits of a whole number -/

/-- A finite number without a fractional part. -/
structure Whole (x : Float) : Prop where
  finite : isFinite x = true
  whole : isWhole x = true

/-- The digits of a whole number, without its sign. -/
def wholeDigits (x : Float) : List Char := Nat.toDigits 10 (units (rank x) / one)

/-- The sign that a whole number is written with. A zero has none. -/
def shownSign (x : Float) : List Char := if rank x = 0 then [] else (sign x).toList

namespace Whole

theorem toList_text (h : Whole x) : (text x).toList = shownSign x ++ wholeDigits x := by
  unfold text shownSign wholeDigits
  rw [if_pos h.finite, if_pos h.whole]
  by_cases hzero : rank x = 0
  · have hunits : units 0 = 0 := Nat.zero_mul _
    rw [if_pos hzero, if_pos hzero, hzero, hunits, Nat.zero_div]
    rfl
  · rw [if_neg hzero, if_neg hzero, wholeText, String.toList_append, String.toList_ofList]

/-- The double that is closest to the digits of a whole number has the rank of that number. -/
theorem nearestRank_eq (h : Whole x) : nearestRank (units (rank x) / one) 1 = rank x := by
  have hdvd : one ∣ units (rank x) := Nat.dvd_of_mod_eq_zero (eq_of_beq h.whole)
  have hfinite : rank x < infinityRank := of_decide_eq_true h.finite
  calc nearestRank (units (rank x) / one) 1
      = nearestRank (units (rank x) / one * one) (1 * one) :=
        (nearestRank_mul_right _ _ one_pos).symm
    _ = nearestRank (units (rank x)) one := by rw [Nat.div_mul_cancel hdvd, Nat.one_mul]
    _ = rank x := nearestRank_units hfinite

/-- **The digits of a whole number are read as its rank.** -/
theorem ofDigits_eq (h : Whole x) : ofDigits (wholeDigits x) [] = ofRank (rank x) := by
  unfold ofDigits wholeDigits nearest
  rw [List.append_nil, Nat.ofDigitChars_ten_toDigits]
  exact congrArg ofRank h.nearestRank_eq

/-- Whole numbers with the same digits have the same rank. -/
theorem rank_eq (hx : Whole x) (hy : Whole y) (h : wholeDigits x = wholeDigits y) :
    rank x = rank y := by
  have hvalue : units (rank x) / one = units (rank y) / one := by
    rw [← Nat.ofDigitChars_ten_toDigits (n := units (rank x) / one),
      ← Nat.ofDigitChars_ten_toDigits (n := units (rank y) / one)]
    exact congrArg (Nat.ofDigitChars 10 · 0) h
  rw [← hx.nearestRank_eq, ← hy.nearestRank_eq, hvalue]

theorem ne_nan (h : Whole x) : x ≠ Float.nan := ne_nan_of_isFinite h.finite

end Whole

/-- A double without a minus sign is that of its rank. -/
theorem ofRank_rank (h : isNegative x = false) : ofRank (rank x) = x := by
  have hbits : x.toBits.toNat = rank x := by
    rw [toNat_toBits, h]
    rfl
  rw [ofRank, ← hbits, UInt64.ofNat_toNat, Float.ofBits_toBits]

/-- Whole numbers that are not below zero are written without a sign, and their digits are read as a
number that is equal to them. -/
theorem Whole.of_nonneg (h : Whole x) (hx : 0 ≤ x) :
    shownSign x = [] ∧ (ofDigits (wholeDigits x) [] == x) = true := by
  rw [h.ofDigits_eq]
  cases hsign : isNegative x with
  | false =>
      rw [ofRank_rank hsign, shownSign, sign, hsign]
      exact ⟨ite_self _, beq_iff.mpr ⟨h.ne_nan, h.ne_nan, Or.inl rfl⟩⟩
  | true =>
      rw [eq_zero_of_nonneg hx hsign]
      decide +kernel

/-! ## Texts of whole numbers -/

theorem shownSign_cases (x : Float) : shownSign x = [] ∨ shownSign x = ['-'] := by
  unfold shownSign sign
  split
  · exact Or.inl rfl
  · split
    · exact Or.inr rfl
    · exact Or.inl rfl

/-- A sign is no digit, so it can be told where the digits start. -/
theorem signed_eq {before before' digits digits' : List Char}
    (hbefore : before = [] ∨ before = ['-']) (hbefore' : before' = [] ∨ before' = ['-'])
    (hdigits : '-' ∉ digits) (hdigits' : '-' ∉ digits')
    (h : before ++ digits = before' ++ digits') : before = before' ∧ digits = digits' := by
  rcases hbefore with rfl | rfl
  · rcases hbefore' with rfl | rfl
    · exact ⟨rfl, h⟩
    · rw [List.nil_append] at h
      rw [h] at hdigits
      exact absurd (List.mem_cons_self ..) hdigits
  · rcases hbefore' with rfl | rfl
    · rw [List.nil_append] at h
      rw [← h] at hdigits'
      exact absurd (List.mem_cons_self ..) hdigits'
    · exact ⟨rfl, (List.cons.inj h).2⟩

theorem minus_notMem_wholeDigits (x : Float) : '-' ∉ wholeDigits x :=
  AllDigits.notMem (isDigits_toDigits (units (rank x) / one)).2 rfl

/-- **Whole numbers are written alike if and only if they are equal.** -/
theorem Whole.text_eq_iff (hx : Whole x) (hy : Whole y) :
    text x = text y ↔ (x == y) = true := by
  constructor
  · intro h
    have hlist := congrArg String.toList h
    rw [hx.toList_text, hy.toList_text] at hlist
    obtain ⟨hsign, hdigits⟩ := signed_eq (shownSign_cases x) (shownSign_cases y)
      (minus_notMem_wholeDigits x) (minus_notMem_wholeDigits y) hlist
    have hrank := hx.rank_eq hy hdigits
    refine beq_iff.mpr ⟨hx.ne_nan, hy.ne_nan, ?_⟩
    by_cases hzero : rank x = 0
    · exact Or.inr ⟨isZero_of_rank hzero, isZero_of_rank (hrank ▸ hzero)⟩
    · refine Or.inl (eq_of_rank_eq hrank ?_)
      rw [shownSign, shownSign, if_neg hzero, if_neg (hrank ▸ hzero), String.toList_inj] at hsign
      unfold sign at hsign
      cases hnx : isNegative x <;> cases hny : isNegative y <;> rw [hnx, hny] at hsign
      · exact absurd hsign (by decide)
      · exact absurd hsign (by decide)
  · intro h
    have hequal : (Value.number x == Value.number y) = true := h
    exact Value.text_eq_of_beq hequal

end Lox.Number

namespace Lox

/-! ## A lexeme by itself -/

/-- A text that is the lexeme of a token has this one token, on its first line. -/
theorem Token.Spelled.tokenize_eq {t : Token} (h : t.Spelled) (hkind : t.kind ≠ .endOfText) :
    tokenize t.lexeme
      = .ok [{ t with line := 1 }, Token.atEnd (1 + t.lexeme.toList.count '\n')] := by
  have hblank : Blank [] := nofun
  have hskip := Cursor.skipTrivia_of_trivia .none (h.bare hblank) 1
  have hnext := Cursor.next_eq hskip
  rw [h.ofText_eq hblank] at hnext
  dsimp only at hnext
  rw [Cursor.advance_length, String.ofList_toList] at hnext
  have hstart : Cursor.start t.lexeme = ⟨[] ++ (t.lexeme.toList ++ []), 1⟩ := by
    rw [List.nil_append, List.append_nil, Cursor.start]
  have hend : ∀ line, (⟨[], line⟩ : Cursor).next = (.ok (Token.atEnd line), ⟨[], line⟩) :=
    fun _ => rfl
  rw [tokenize, Scan.ofText, hstart, Scan.ofCursor_of_token hnext hkind,
    Scan.ofCursor_of_end (hend _) rfl]
  rfl

/-- Digits are the lexeme of a number, which is the one that is read from them. -/
theorem tokenize_digits {chars : List Char} (h : IsDigits chars) :
    tokenize (String.ofList chars) = .ok [⟨.number, String.ofList chars,
      some (.number (Number.ofDigits chars [])), 1⟩, Token.atEnd 1] := by
  let t : Token := ⟨.number, String.ofList chars, some (.number (Number.ofDigits chars [])), 1⟩
  have hchars : t.lexeme.toList = chars := String.toList_ofList
  have hspelled : t.Spelled := by
    refine ⟨.number, ?_, ?_⟩
    · rw [hchars]
      exact Or.inl h
    · rw [hchars]
      exact ⟨rfl, _, Number.read?_whole h, rfl⟩
  have hlines : t.lexeme.toList.count '\n' = 0 := by
    rw [hchars]
    exact List.count_eq_zero.mpr (Number.AllDigits.notMem h.2 rfl)
  rw [hspelled.tokenize_eq (fun hkind => by cases hkind), hlines]

/--
**A whole number is written so that it is read as itself.**

The text of a finite number without a fractional part that is not below zero is one token and
nothing else. The token is a number with all of the text for its lexeme, and its value is equal to
the number that was written. Of all such numbers, also those below zero, two have the same text if
and only if they are equal, as the two zeros are.
-/
theorem whole_number_is_read_back {n : Float} (hn : Number.Whole n) :
    (0 ≤ n → ∃ x, tokenize (Value.number n).text
        = .ok [⟨.number, (Value.number n).text, some (.number x), 1⟩, Token.atEnd 1]
      ∧ (x == n) = true)
    ∧ ∀ m, Number.Whole m →
        ((Value.number m).text = (Value.number n).text ↔ (m == n) = true) := by
  refine ⟨fun hnonneg => ?_, fun m hm => hm.text_eq_iff hn⟩
  obtain ⟨hsign, hvalue⟩ := hn.of_nonneg hnonneg
  have htext : (Value.number n).text = String.ofList (Number.wholeDigits n) := by
    rw [← String.toList_inj, String.toList_ofList]
    exact hn.toList_text.trans (by rw [hsign, List.nil_append])
  rw [htext]
  exact ⟨_, tokenize_digits (Number.isDigits_toDigits _), hvalue⟩

/-- The largest finite double has 309 digits. They are not those of the double below it, and a zero
is written in the same way with its minus sign. -/
theorem whole_number_is_read_back_largest :
    let n : Float := 1.7976931348623157e308
    let below : Float := 1.7976931348623155e308
    Number.Whole n ∧ 0 ≤ n ∧ (Number.wholeDigits n).length = 309
      ∧ (∃ x, tokenize (Value.number n).text
          = .ok [⟨.number, (Value.number n).text, some (.number x), 1⟩, Token.atEnd 1]
        ∧ (x == n) = true)
      ∧ (Value.number below).text ≠ (Value.number n).text
      ∧ (Value.number (-0.0)).text = (Value.number 0.0).text := by
  intro n below
  have hwhole : Number.Whole n ∧ Number.Whole below ∧ Number.Whole 0.0 ∧ Number.Whole (-0.0) := by
    refine ⟨⟨?_, ?_⟩, ⟨?_, ?_⟩, ⟨?_, ?_⟩, ⟨?_, ?_⟩⟩ <;> decide +kernel
  obtain ⟨hn, hbelow, hzero, hminus⟩ := hwhole
  have hnonneg : 0 ≤ n := by decide +kernel
  have hdiffer : ¬(below == n) = true := by decide +kernel
  have hzeros : ((-0.0 : Float) == 0.0) = true := by decide +kernel
  refine ⟨hn, hnonneg, by decide +kernel, (whole_number_is_read_back hn).1 hnonneg, ?_, ?_⟩
  · exact mt ((whole_number_is_read_back hn).2 below hbelow).mp hdiffer
  · exact ((whole_number_is_read_back hzero).2 (-0.0) hminus).mpr hzeros

end Lox
