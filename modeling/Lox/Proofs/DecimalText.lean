import Lox.Number.Shortest
import Lox.Proofs.Doubles
import Lox.Proofs.LongestMatch

/-!
# Decimal text can be read back

The text of a decimal is laid out in one of two ways, with a point alone or with an exponent, and
the digits that are not significant are left out or put in as the layout wants it. None of this
loses anything: `readCrumbs` takes any such text apart at the `e` and at the point, and finds the
number of crumbs it was written from. The fewest digits of a double read back as the double, so two
finite doubles with one text are the same, the sign of zero included.
-/

namespace Lox.Number

/-! ## Reading a decimal text -/

/-- A text in front of the first character `c` and behind it. All of it is in front if there is
none. -/
def splitAt (c : Char) (text : List Char) : List Char × List Char :=
  (text.takeWhile (· != c), (text.dropWhile (· != c)).drop 1)

/-- A signed number, zero if there are no characters. -/
def readExponent : List Char → Int
  | '-' :: digits => -(Nat.ofDigitChars 10 digits 0 : Int)
  | _ :: digits => Nat.ofDigitChars 10 digits 0
  | [] => 0

/-- How many crumbs the digits in front of a point and behind it are, with an exponent. -/
def digitsValue (whole fraction : List Char) (exponent : Int) : Nat :=
  Nat.ofDigitChars 10 (whole ++ fraction) 0 * 10 ^ (halvings + exponent - fraction.length).toNat

/-- How many crumbs a decimal text stands for. -/
def readCrumbs (text : List Char) : Nat :=
  let (mantissa, exponent) := splitAt 'e' text
  let (whole, fraction) := splitAt '.' mantissa
  digitsValue whole fraction (readExponent exponent)

theorem splitAt_of_notMem {c : Char} {text : List Char} (h : c ∉ text) :
    splitAt c text = (text, []) := by
  have hne : ∀ d ∈ text, (d != c) = true := fun d hd => bne_iff_ne.mpr fun hdc => h (hdc ▸ hd)
  obtain ⟨htake, hdrop⟩ := takeWhile_all hne
  rw [splitAt, htake, hdrop, List.drop_nil]

theorem splitAt_append {c : Char} {before : List Char} (h : c ∉ before) (after : List Char) :
    splitAt c (before ++ c :: after) = (before, after) := by
  have hne : ∀ d ∈ before, (d != c) = true := fun d hd => bne_iff_ne.mpr fun hdc => h (hdc ▸ hd)
  obtain ⟨htake, hdrop⟩ := takeWhile_before after hne (bne_self_eq_false c)
  rw [splitAt, htake, hdrop, List.drop_one, List.tail_cons]

/-- The characters of an exponent: its sign and its digits. -/
def exponentChars (exponent : Int) : List Char :=
  (if exponent < 0 then '-' else '+') :: Nat.toDigits 10 exponent.natAbs

theorem readExponent_exponentChars (exponent : Int) :
    readExponent (exponentChars exponent) = exponent := by
  have hdigits := Nat.ofDigitChars_toDigits (b := 10) (n := exponent.natAbs) (by decide) (by decide)
  unfold exponentChars
  split
  · rw [readExponent, hdigits]
    omega
  · rw [readExponent, hdigits]
    · omega
    · decide

/-! ## How a decimal is written -/

/-- Whether all of these are decimal digits; there may be none. -/
def AllDigits (chars : List Char) : Prop := ∀ c ∈ chars, c.isDigit = true

theorem AllDigits.notMem {chars : List Char} (h : AllDigits chars) {c : Char}
    (hc : c.isDigit = false) : c ∉ chars := by
  intro hmem
  rw [h c hmem] at hc
  cases hc

/-- Digits in front of a point and behind it, and the text of both. The point is left out if nothing
stands behind it. -/
inductive Pointed : List Char → List Char → List Char → Prop where
  | whole {whole : List Char} : IsDigits whole → Pointed whole whole []
  | point {whole fraction : List Char} :
      IsDigits whole → AllDigits fraction → Pointed (whole ++ '.' :: fraction) whole fraction

/-- The text of a decimal, and how many crumbs it is. A point or an exponent is always there. -/
inductive Writes : List Char → Nat → Prop where
  | point {whole fraction : List Char} :
      IsDigits whole → AllDigits fraction →
      Writes (whole ++ '.' :: fraction) (digitsValue whole fraction 0)
  | exponent {mantissa whole fraction : List Char} {exponent : Int} :
      Pointed mantissa whole fraction →
      Writes (mantissa ++ 'e' :: exponentChars exponent) (digitsValue whole fraction exponent)

namespace Pointed

variable {chars whole fraction : List Char}

theorem splitAt_point (h : Pointed chars whole fraction) :
    splitAt '.' chars = (whole, fraction) := by
  cases h with
  | whole hwhole => exact splitAt_of_notMem (AllDigits.notMem hwhole.2 rfl)
  | point hwhole _ => exact splitAt_append (AllDigits.notMem hwhole.2 rfl) fraction

theorem digit_or_point (h : Pointed chars whole fraction) {c : Char} (hc : c ∈ chars) :
    c.isDigit = true ∨ c = '.' := by
  cases h with
  | whole hwhole => exact Or.inl (hwhole.2 c hc)
  | point hwhole hfraction =>
      rw [List.mem_append, List.mem_cons] at hc
      rcases hc with hc | hc | hc
      · exact Or.inl (hwhole.2 c hc)
      · exact Or.inr hc
      · exact Or.inl (hfraction c hc)

theorem exponent_notMem (h : Pointed chars whole fraction) : 'e' ∉ chars := by
  intro hmem
  rcases h.digit_or_point hmem with hdigit | hpoint
  · exact absurd hdigit (by decide)
  · exact absurd hpoint (by decide)

theorem isDigits_whole (h : Pointed chars whole fraction) : IsDigits whole := by
  cases h <;> assumption

theorem whole_prefix (h : Pointed chars whole fraction) : whole <+: chars := by
  cases h with
  | whole _ => exact List.prefix_refl _
  | point _ _ => exact List.prefix_append ..

end Pointed

/-- The characters that the texts of numbers are made of. -/
def isNumberChar (c : Char) : Bool := c.isDigit || c == '.' || c == 'e' || c == '+' || c == '-'

theorem isNumberChar_of_isDigit {c : Char} (h : c.isDigit = true) : isNumberChar c = true := by
  unfold isNumberChar
  rw [h, Bool.true_or, Bool.true_or, Bool.true_or, Bool.true_or]

theorem exponentChars_number {exponent : Int} {c : Char} (h : c ∈ exponentChars exponent) :
    isNumberChar c = true := by
  rcases List.mem_cons.mp h with rfl | h
  · split <;> decide
  · exact isNumberChar_of_isDigit (Nat.isDigit_of_mem_toDigits (by decide) (by decide) h)

namespace Writes

variable {text : List Char} {decimal : Nat}

/-- **A decimal text is read back as what it was written from.** -/
theorem readCrumbs_eq (h : Writes text decimal) : readCrumbs text = decimal := by
  cases h with
  | point hwhole hfraction =>
      have hpointed := Pointed.point hwhole hfraction
      rw [readCrumbs, splitAt_of_notMem hpointed.exponent_notMem]
      dsimp only
      rw [hpointed.splitAt_point]
      rfl
  | exponent hpointed =>
      rw [readCrumbs, splitAt_append hpointed.exponent_notMem]
      dsimp only
      rw [hpointed.splitAt_point]
      dsimp only
      rw [readExponent_exponentChars]

theorem isNumberChar (h : Writes text decimal) {c : Char} (hc : c ∈ text) :
    isNumberChar c = true := by
  have hpointed : ∀ {chars whole fraction : List Char}, Pointed chars whole fraction →
      c ∈ chars → Number.isNumberChar c = true := by
    intro chars whole fraction hpointed hc
    rcases hpointed.digit_or_point hc with hdigit | rfl
    · exact isNumberChar_of_isDigit hdigit
    · rfl
  cases h with
  | point hwhole hfraction => exact hpointed (.point hwhole hfraction) hc
  | exponent hmantissa =>
      rcases List.mem_append.mp hc with hc | hc
      · exact hpointed hmantissa hc
      · rcases List.mem_cons.mp hc with rfl | hc
        · rfl
        · exact exponentChars_number hc

/-- A decimal text is never all digits. -/
theorem not_allDigits (h : Writes text decimal) : ¬AllDigits text := by
  intro hall
  cases h with
  | point _ _ => exact hall.notMem (c := '.') rfl (by simp)
  | exponent _ => exact hall.notMem (c := 'e') rfl (by simp)

theorem first (h : Writes text decimal) : ∃ c later, text = c :: later ∧ c.isDigit = true := by
  have hpointed : ∀ {chars whole fraction : List Char}, Pointed chars whole fraction →
      ∃ c later, chars = c :: later ∧ c.isDigit = true := by
    intro chars whole fraction hpointed
    obtain ⟨later, rfl⟩ := hpointed.whole_prefix
    obtain ⟨c, more, rfl⟩ := List.exists_cons_of_ne_nil hpointed.isDigits_whole.1
    exact ⟨c, more ++ later, rfl, hpointed.isDigits_whole.2 c (List.mem_cons_self ..)⟩
  cases h with
  | point hwhole hfraction => exact hpointed (.point hwhole hfraction)
  | exponent hmantissa =>
      obtain ⟨c, later, rfl, hc⟩ := hpointed hmantissa
      exact ⟨c, _, rfl, hc⟩

end Writes

/-! ## The two layouts -/

/-- Without the zeros at their end, digits are worth as many powers of ten less. -/
theorem dropTrailingZeros_spec (all : List Char) :
    ∃ n, dropTrailingZeros all ++ List.replicate n '0' = all := by
  refine ⟨(all.reverse.takeWhile (· == '0')).length, ?_⟩
  have hzeros : all.reverse.takeWhile (· == '0')
      = List.replicate (all.reverse.takeWhile (· == '0')).length '0' :=
    List.eq_replicate_iff.mpr ⟨rfl, fun c hc => eq_of_beq (of_mem_takeWhile (p := (· == '0')) hc)⟩
  calc dropTrailingZeros all ++ List.replicate (all.reverse.takeWhile (· == '0')).length '0'
      = (List.replicate (all.reverse.takeWhile (· == '0')).length '0'
          ++ all.reverse.dropWhile (· == '0')).reverse := by
        rw [List.reverse_append, List.reverse_replicate, dropTrailingZeros]
    _ = (all.reverse.takeWhile (· == '0') ++ all.reverse.dropWhile (· == '0')).reverse := by
        rw [← hzeros]
    _ = all := by rw [List.takeWhile_append_dropWhile, List.reverse_reverse]

/-- Zeros in front of digits are worth nothing. -/
theorem ofDigitChars_zeros (n : Nat) (digits : List Char) :
    Nat.ofDigitChars 10 (List.replicate n '0' ++ digits) 0 = Nat.ofDigitChars 10 digits 0 := by
  rw [Nat.ofDigitChars_append, Nat.ofDigitChars_replicate_zero, Nat.mul_zero]

/-- Zeros behind digits are worth as many powers of ten. -/
theorem ofDigitChars_append_zeros (digits : List Char) (n : Nat) :
    Nat.ofDigitChars 10 (digits ++ List.replicate n '0') 0
      = Nat.ofDigitChars 10 digits 0 * 10 ^ n := by
  rw [Nat.ofDigitChars_append, Nat.ofDigitChars_replicate_zero, Nat.mul_comm]

/-- A single zero is a digit. -/
theorem isDigits_zero : IsDigits ['0'] :=
  ⟨List.cons_ne_nil _ _, List.forall_mem_singleton.mpr rfl⟩

theorem halvings_pos : 0 < halvings := by
  unfold halvings
  decide

theorem allDigits_zeros (n : Nat) : AllDigits (List.replicate n '0') := by
  intro c hc
  rw [List.eq_of_mem_replicate hc]
  rfl

theorem AllDigits.append {chars chars' : List Char} (h : AllDigits chars) (h' : AllDigits chars') :
    AllDigits (chars ++ chars') := by
  intro c hc
  exact (List.mem_append.mp hc).elim (h c) (h' c)

variable {digits : List Char} {zeros : Nat} {point : Int}

/-! ### Where the point can stand -/

/-- Zeros and then all digits behind the point. -/
theorem digitsValue_behind (hpoint : point = digits.length + zeros - halvings) (hle : point ≤ 0) :
    digitsValue ['0'] (List.replicate point.natAbs '0' ++ digits) 0
      = Nat.ofDigitChars 10 digits 0 * 10 ^ zeros := by
  have hdigits := ofDigitChars_zeros (point.natAbs + 1) digits
  rw [List.replicate_succ, List.cons_append] at hdigits
  rw [digitsValue, List.length_append, List.length_replicate, List.singleton_append, hdigits]
  congr 2
  omega

/-- All digits and then zeros in front of the point, and a zero behind it. -/
theorem digitsValue_inFront (hpoint : point = digits.length + zeros - halvings) (hpos : 0 < point)
    (hlength : digits.length ≤ point.toNat) :
    digitsValue (digits.take point.toNat ++ List.replicate (point.toNat - digits.length) '0')
      ['0'] 0 = Nat.ofDigitChars 10 digits 0 * 10 ^ zeros := by
  have hplaces := halvings_pos
  rw [digitsValue, List.take_of_length_le hlength, List.append_assoc, ← List.replicate_one,
    List.replicate_append_replicate, ofDigitChars_append_zeros, Nat.mul_assoc, ← Nat.pow_add,
    List.length_replicate]
  congr 2
  omega

/-- The point among the digits. -/
theorem digitsValue_among (hpoint : point = digits.length + zeros - halvings) (hpos : 0 < point)
    (hlength : point.toNat < digits.length) :
    digitsValue (digits.take point.toNat ++ List.replicate (point.toNat - digits.length) '0')
      (digits.drop point.toNat) 0 = Nat.ofDigitChars 10 digits 0 * 10 ^ zeros := by
  rw [digitsValue, Nat.sub_eq_zero_of_le (Nat.le_of_lt hlength), List.replicate_zero,
    List.append_nil, List.take_append_drop, List.length_drop]
  congr 2
  omega

/-- Digits with a point are worth what they are with the zeros behind them, the last of which stands
at the last place behind the point. -/
theorem positionalText_writes (h : IsDigits digits)
    (hpoint : point = digits.length + zeros - halvings) :
    Writes (positionalText digits point).toList (Nat.ofDigitChars 10 digits 0 * 10 ^ zeros) := by
  unfold positionalText
  split
  · rename_i hle
    have htext : ("0." ++ String.ofList (List.replicate point.natAbs '0' ++ digits)).toList
        = ['0'] ++ '.' :: (List.replicate point.natAbs '0' ++ digits) := by
      simp only [String.toList_append, String.toList_ofList]
      rfl
    rw [← digitsValue_behind hpoint hle, htext]
    exact .point isDigits_zero ((allDigits_zeros _).append h.2)
  · have hpos : 0 < point := by omega
    dsimp only
    have hpointed : ∀ before after : List Char,
        (String.ofList before ++ "." ++ String.ofList after).toList = before ++ '.' :: after := by
      intro before after
      simp only [String.toList_append, String.toList_ofList, List.append_assoc]
      rfl
    rw [hpointed]
    have hwhole : IsDigits (digits.take point.toNat
        ++ List.replicate (point.toNat - digits.length) '0') := by
      constructor
      · refine List.append_ne_nil_of_left_ne_nil ?_ _
        exact fun hnil => h.1 ((List.take_eq_nil_iff.mp hnil).resolve_left (by omega))
      · exact AllDigits.append (fun c hc => h.2 c (List.mem_of_mem_take hc)) (allDigits_zeros _)
    split
    · rename_i hempty
      rw [List.isEmpty_iff, List.drop_eq_nil_iff] at hempty
      rw [← digitsValue_inFront hpoint hpos hempty]
      exact .point hwhole isDigits_zero.2
    · rename_i hempty
      rw [List.isEmpty_iff, List.drop_eq_nil_iff, Nat.not_le] at hempty
      rw [← digitsValue_among hpoint hpos hempty]
      exact .point hwhole fun c hc => h.2 c (List.mem_of_mem_drop hc)

/-- Digits with an exponent are worth the same. -/
theorem exponentText_writes (h : IsDigits digits)
    (hpoint : point = digits.length + zeros - halvings) :
    Writes (exponentText digits (point - 1)).toList
      (Nat.ofDigitChars 10 digits 0 * 10 ^ zeros) := by
  obtain ⟨c, later, rfl⟩ := List.exists_cons_of_ne_nil h.1
  have hwhole : IsDigits [c] := by
    refine ⟨List.cons_ne_nil c [], fun d hd => ?_⟩
    rw [List.mem_singleton.mp hd]
    exact h.2 c (List.mem_cons_self ..)
  have hlater : AllDigits later := fun d hd => h.2 d (List.mem_cons_of_mem _ hd)
  rw [List.length_cons] at hpoint
  have hvalue : digitsValue [c] later (point - 1)
      = Nat.ofDigitChars 10 (c :: later) 0 * 10 ^ zeros := by
    rw [digitsValue, List.singleton_append]
    congr 2
    omega
  have hexponent : ∀ mantissa : String,
      (mantissa ++ "e" ++ (if point - 1 < 0 then "-" else "+")
        ++ String.ofList (Nat.toDigits 10 (point - 1).natAbs)).toList
      = mantissa.toList ++ 'e' :: exponentChars (point - 1) := by
    intro mantissa
    rw [String.toList_append, String.toList_append, String.toList_append, String.toList_ofList,
      exponentChars]
    split <;> simp
  rw [← hvalue, exponentText, hexponent]
  refine .exponent ?_
  rw [String.toList_append, String.toList_ofList]
  split
  · rename_i hlength
    have hnil : later = [] := by
      rw [List.length_cons] at hlength
      exact List.length_eq_zero_iff.mp (by omega)
    subst hnil
    exact .whole hwhole
  · have htext : ("." ++ String.ofList ((c :: later).drop 1)).toList = '.' :: later := by
      simp only [String.toList_append, String.toList_ofList]
      rfl
    rw [htext]
    exact Pointed.point hwhole hlater

/-- **A decimal of any size is written so that it can be read back.** -/
theorem decimalText_writes (range : PointRange) (decimal : Nat) :
    Writes (decimalText range decimal).toList decimal := by
  unfold decimalText
  split
  · rename_i hzero
    have hvalue : digitsValue ['0'] ['0'] 0 = decimal := by
      rw [hzero, digitsValue]
      exact Nat.zero_mul _
    rw [← hvalue]
    exact .point isDigits_zero isDigits_zero.2
  · rename_i hpos
    dsimp only
    obtain ⟨zeros, hzeros⟩ := dropTrailingZeros_spec (Nat.toDigits 10 decimal)
    have hvalue : Nat.ofDigitChars 10 (dropTrailingZeros (Nat.toDigits 10 decimal)) 0 * 10 ^ zeros
        = decimal := by
      rw [← ofDigitChars_append_zeros, hzeros, Nat.ofDigitChars_ten_toDigits]
    have hlength : (Nat.toDigits 10 decimal).length
        = (dropTrailingZeros (Nat.toDigits 10 decimal)).length + zeros := by
      rw [← hzeros, List.length_append, List.length_replicate, hzeros]
    have hdigits : IsDigits (dropTrailingZeros (Nat.toDigits 10 decimal)) := by
      constructor
      · intro hnil
        rw [hnil] at hvalue
        exact hpos (by rw [← hvalue]; exact Nat.zero_mul _)
      · intro c hc
        refine Nat.isDigit_of_mem_toDigits (b := 10) (n := decimal) (by decide) (by decide) ?_
        rw [← hzeros]
        exact List.mem_append_left _ hc
    rw [hlength, Nat.cast_add]
    split
    · have hwrites := @positionalText_writes _ zeros _ hdigits rfl
      rwa [hvalue] at hwrites
    · have hwrites := @exponentText_writes _ zeros _ hdigits rfl
      rwa [hvalue] at hwrites

/-! ## The text of a double -/

/-- The shortest decimal of a rank is that of no other. -/
theorem rank_eq_of_shortest {r r' : Nat} (h : r < infinityRank) (h' : r' < infinityRank)
    (heq : shortest r = shortest r') : r = r' := by
  have hread := readsBack_shortest h
  have hread' := readsBack_shortest h'
  rw [readsBack, beq_iff_eq] at hread hread'
  rw [← hread, ← hread', heq]

theorem toList_shortestText (range : PointRange) (x : Float) :
    (shortestText range x).toList
      = (if isNegative x then ['-'] else []) ++ (decimalText range (shortest (rank x))).toList := by
  rw [shortestText, String.toList_append]
  split <;> rfl

/-- A text of a double starts with its sign, or with a digit. -/
theorem first_of_shortestText (range : PointRange) (x : Float) :
    ∃ c later, (shortestText range x).toList = c :: later ∧ (c.isDigit = true ∨ c = '-') := by
  obtain ⟨c, later, hfirst, hc⟩ := (decimalText_writes range (shortest (rank x))).first
  rw [toList_shortestText, hfirst]
  split
  · exact ⟨_, _, rfl, Or.inr rfl⟩
  · exact ⟨c, later, rfl, Or.inl hc⟩

theorem isNumberChar_of_shortestText {range : PointRange} {x : Float} {c : Char}
    (h : c ∈ (shortestText range x).toList) : isNumberChar c = true := by
  rw [toList_shortestText] at h
  rcases List.mem_append.mp h with h | h
  · split at h
    · rw [List.mem_singleton.mp h]
      rfl
    · cases h
  · exact (decimalText_writes range _).isNumberChar h

/-- The text of a double is not that of a whole number without a point. -/
theorem shortestText_not_allDigits (range : PointRange) (x : Float) :
    ¬AllDigits (shortestText range x).toList := by
  rw [toList_shortestText]
  intro h
  exact (decimalText_writes range _).not_allDigits fun c hc => h c (List.mem_append_right _ hc)

/-- **Finite doubles with one text are the same double**, with the same sign even if it is zero. -/
theorem shortestText_injective {range : PointRange} {x y : Float} (hx : isFinite x = true)
    (hy : isFinite y = true) (h : shortestText range x = shortestText range y) : x = y := by
  have hx' : rank x < infinityRank := of_decide_eq_true hx
  have hy' : rank y < infinityRank := of_decide_eq_true hy
  have hlist := congrArg String.toList h
  have hwrites := decimalText_writes range (shortest (rank x))
  have hwrites' := decimalText_writes range (shortest (rank y))
  obtain ⟨c, later, hfirst, hc⟩ := hwrites.first
  obtain ⟨c', later', hfirst', hc'⟩ := hwrites'.first
  have hsign : isNegative x = isNegative y := by
    rw [toList_shortestText, toList_shortestText, hfirst, hfirst'] at hlist
    cases hnx : isNegative x with
    | true =>
        cases hny : isNegative y with
        | true => rfl
        | false =>
            rw [hnx, hny] at hlist
            cases hlist
            exact absurd hc' (by decide)
    | false =>
        cases hny : isNegative y with
        | false => rfl
        | true =>
            rw [hnx, hny] at hlist
            cases hlist
            exact absurd hc (by decide)
  rw [toList_shortestText, toList_shortestText, hsign] at hlist
  have hdecimal := List.append_cancel_left hlist
  have hshortest : shortest (rank x) = shortest (rank y) := by
    rw [← hwrites.readCrumbs_eq, ← hwrites'.readCrumbs_eq, hdecimal]
  exact eq_of_rank_eq (rank_eq_of_shortest hx' hy' hshortest) hsign

end Lox.Number
