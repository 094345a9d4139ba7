import Lox.Proofs.Trivia

/-!
# The longest match

Which characters make a lexeme is said here form by form, without regard to a text that they stand
in. Of all prefixes of a text that have one of the forms, the one that is read is the longest, and
if there is none, then an error is what comes of reading.

The first character of a lexeme decides its form, `Form.Matches.first`. So the prefixes that have to
be compared are all of one form, and for each form the comparison is a matter of where its
characters end.
-/

namespace Lox

/-! ## The forms of lexemes -/

/-- One decimal digit or more. -/
def IsDigits (chars : List Char) : Prop := chars ≠ [] ∧ ∀ c ∈ chars, c.isDigit = true

instance (chars : List Char) : Decidable (IsDigits chars) :=
  inferInstanceAs (Decidable (_ ∧ _))

inductive Form where
  | operator
  | string
  | number
  | word
deriving DecidableEq, Repr

namespace Form

/-- The lexemes of a form. -/
def Matches : Form → List Char → Prop
  | operator, chars => ∃ kind, (chars, kind) ∈ operators
  | string, chars => ∃ inner, '"' ∉ inner ∧ chars = '"' :: (inner ++ ['"'])
  | number, chars => IsDigits chars
      ∨ ∃ whole fraction, IsDigits whole ∧ IsDigits fraction ∧ chars = whole ++ '.' :: fraction
  | word, chars => ∃ c later, isWordStart c = true ∧ (∀ d ∈ later, isWordPart d = true)
      ∧ chars = c :: later

end Form

/-- No prefix of the text is a lexeme of any form. -/
def NoLexeme (text : List Char) : Prop :=
  ∀ (form : Form) (chars : List Char), form.Matches chars → ¬chars <+: text

/-- The text starts with these characters, they are a lexeme, and no longer prefix of the text is
one, whatever its form. -/
structure Longest (chars text : List Char) : Prop where
  isPrefix : chars <+: text
  isLexeme : ∃ form : Form, form.Matches chars
  longest : ∀ (form : Form) (other : List Char), form.Matches other → other <+: text →
    other.length ≤ chars.length

/-! ## What lexemes stand for -/

/-- The number that digits with at most one point before, among or behind them are read as. Other
characters make no number. -/
def Number.read? (chars : List Char) : Option Float :=
  let whole := chars.takeWhile (· != '.')
  let fraction := (chars.dropWhile (· != '.')).drop 1
  if IsDigits (whole ++ fraction) then some (ofDigits whole fraction) else none

/-- The kind and the literal of a lexeme of a form. A word has the kind of an identifier if and only
if it is no reserved word. -/
def Form.Denotes (chars : List Char) (kind : TokenKind) (literal : Option Value) : Form → Prop
  | operator => (chars, kind) ∈ operators ∧ literal = none
  | string => kind = .string ∧ ∃ inner, chars = '"' :: (inner ++ ['"'])
      ∧ literal = some (.string (String.ofList inner))
  | number => kind = .number ∧ ∃ x, Number.read? chars = some x ∧ literal = some (.number x)
  | word => TokenKind.keyword? (String.ofList chars)
        = (if kind = .identifier then none else some kind)
      ∧ literal = kind.wordValue?

/-! ## The first character decides the form -/

/-- A reserved word is no identifier. -/
theorem TokenKind.keyword?_ne_identifier {word : String} {kind : TokenKind}
    (h : keyword? word = some kind) : kind ≠ .identifier := by
  unfold keyword? at h
  split at h <;> cases h <;> decide

/-- No digit is a letter. -/
theorem isWordStart_of_isDigit {c : Char} (h : c.isDigit = true) : isWordStart c = false := by
  have hlow : c.toNat < 65 := by
    have hbounds : 48 ≤ c.toNat ∧ c.toNat ≤ 57 := by
      simpa [Char.isDigit, UInt32.le_iff_toNat_le] using h
    omega
  have hletter : Text.isAlphabetic c = false :=
    Text.Ranges.holds_eq_false_of_lt Text.alphabeticRanges_ascends hlow
  have hunderscore : c ≠ '_' := by
    rintro rfl
    exact absurd h (by decide)
  rw [isWordStart, hletter, Bool.false_or]
  exact beq_eq_false_iff_ne.mpr hunderscore

/-- A word may go on with what it may start with. -/
theorem isWordPart_of_isWordStart {c : Char} (h : isWordStart c = true) : isWordPart c = true := by
  rcases Bool.or_eq_true_iff.mp h with hletter | hunderscore
  · rw [isWordPart, hletter, Bool.true_or, Bool.true_or]
  · rw [isWordPart, hunderscore, Bool.or_true]

namespace Form

/-- The one form that a lexeme with this first character can have. -/
def ofFirst (c : Char) : Form :=
  if c = '"' then string
  else if c.isDigit then number
  else if isWordStart c then word
  else operator

theorem ofFirst_digit {c : Char} (h : c.isDigit = true) : ofFirst c = number := by
  have hquote : c ≠ '"' := by
    rintro rfl
    exact absurd h (by decide)
  rw [ofFirst, if_neg hquote, if_pos h]

theorem ofFirst_wordStart {c : Char} (h : isWordStart c = true) : ofFirst c = word := by
  have hquote : c ≠ '"' := by
    rintro rfl
    exact absurd h (by decide +kernel)
  have hdigit : ¬c.isDigit = true := by
    intro hdigit
    rw [isWordStart_of_isDigit hdigit] at h
    cases h
  rw [ofFirst, if_neg hquote, if_neg hdigit, if_pos h]

/-- **A lexeme has a first character, which tells its form.** -/
theorem Matches.first {form : Form} {chars : List Char} (h : form.Matches chars) :
    ∃ c later, chars = c :: later ∧ ofFirst c = form := by
  cases form with
  | operator =>
      have hall : ∀ o ∈ operators, o.1.head?.map ofFirst = some operator := by decide +kernel
      obtain ⟨kind, hmem⟩ := h
      obtain ⟨c, hc, hform⟩ := Option.map_eq_some_iff.mp (hall _ hmem)
      obtain ⟨later, rfl⟩ := List.head?_eq_some_iff.mp hc
      exact ⟨c, later, rfl, hform⟩
  | string =>
      obtain ⟨inner, _, rfl⟩ := h
      exact ⟨_, _, rfl, rfl⟩
  | number =>
      have hdigits : ∀ {chars : List Char}, IsDigits chars →
          ∃ c later, chars = c :: later ∧ c.isDigit = true := by
        rintro chars ⟨hne, hall⟩
        obtain ⟨c, later, rfl⟩ := List.exists_cons_of_ne_nil hne
        exact ⟨c, later, rfl, hall c (List.mem_cons_self ..)⟩
      rcases h with h | ⟨whole, fraction, hwhole, _, rfl⟩
      · obtain ⟨c, later, rfl, hc⟩ := hdigits h
        exact ⟨c, later, rfl, ofFirst_digit hc⟩
      · obtain ⟨c, later, rfl, hc⟩ := hdigits hwhole
        exact ⟨c, _, rfl, ofFirst_digit hc⟩
  | word =>
      obtain ⟨c, later, hc, _, rfl⟩ := h
      exact ⟨c, later, rfl, ofFirst_wordStart hc⟩

theorem Matches.ne_nil {form : Form} {chars : List Char} (h : form.Matches chars) :
    chars ≠ [] := by
  obtain ⟨c, later, rfl, _⟩ := h.first
  exact List.cons_ne_nil c later

/-- Two lexemes that start a text have one form. -/
theorem Matches.form_eq {form form' : Form} {chars chars' text : List Char}
    (h : form.Matches chars) (h' : form'.Matches chars') (hp : chars <+: text)
    (hp' : chars' <+: text) : form' = form := by
  obtain ⟨c, later, rfl, hc⟩ := h.first
  obtain ⟨c', later', rfl, hc'⟩ := h'.first
  obtain ⟨rest, rfl⟩ := hp
  obtain ⟨rfl, _⟩ := List.cons_prefix_cons.mp hp'
  exact hc'.symm.trans hc

end Form

/-- No lexeme is left where a text is over. -/
theorem noLexeme_nil : NoLexeme [] := by
  intro form chars h hp
  exact h.ne_nil (List.prefix_nil.mp hp)

namespace Longest

variable {form : Form} {chars text : List Char}

/-- A lexeme is the longest if it is the longest of its own form. -/
theorem of_form (h : form.Matches chars) (hp : chars <+: text)
    (hlongest : ∀ other, form.Matches other → other <+: text → other.length ≤ chars.length) :
    Longest chars text := by
  refine ⟨hp, ⟨form, h⟩, fun form' other h' hp' => ?_⟩
  rw [h.form_eq h' hp hp'] at h'
  exact hlongest other h' hp'

end Longest

/-- Characters of a class that start a text are among the first ones of that class. -/
theorem length_le_takeWhile {p : Char → Bool} {chars text : List Char}
    (h : ∀ c ∈ chars, p c = true) (hp : chars <+: text) :
    chars.length ≤ (text.takeWhile p).length := by
  obtain ⟨later, rfl⟩ := hp
  rw [List.takeWhile_append_of_pos h, List.length_append]
  omega

/-- The first characters of a class are of that class. -/
theorem of_mem_takeWhile {p : Char → Bool} {text : List Char} {c : Char}
    (h : c ∈ text.takeWhile p) : p c = true :=
  List.all_eq_true.mp List.all_takeWhile c h

/-- Where characters of a class are followed by another character, they are all there are. -/
theorem takeWhile_before {p : Char → Bool} {chars : List Char} {stop : Char} (later : List Char)
    (h : ∀ c ∈ chars, p c = true) (hstop : p stop = false) :
    (chars ++ stop :: later).takeWhile p = chars
      ∧ (chars ++ stop :: later).dropWhile p = stop :: later := by
  have hneg : ¬p stop = true := by rw [hstop]; decide
  rw [List.takeWhile_append_of_pos h, List.dropWhile_append_of_pos h,
    List.takeWhile_cons_of_neg hneg, List.dropWhile_cons_of_neg hneg, List.append_nil]
  exact ⟨rfl, rfl⟩

/-- Where all characters are of the class, the class has all of them. -/
theorem takeWhile_all {p : Char → Bool} {chars : List Char} (h : ∀ c ∈ chars, p c = true) :
    chars.takeWhile p = chars ∧ chars.dropWhile p = [] := by
  have htake : (chars ++ []).takeWhile p = chars ++ [] := List.takeWhile_append_of_pos h
  have hdrop : (chars ++ []).dropWhile p = [] := List.dropWhile_append_of_pos h
  rw [List.append_nil] at htake hdrop
  exact ⟨htake, hdrop⟩

/-! ## Numbers that are read -/

namespace Number

theorem ne_point_of_isDigits {chars : List Char} (h : IsDigits chars) :
    ∀ c ∈ chars, (c != '.') = true := by
  intro c hc
  refine bne_iff_ne.mpr ?_
  rintro rfl
  exact absurd (h.2 _ hc) (by decide)

theorem read?_whole {whole : List Char} (h : IsDigits whole) :
    read? whole = some (ofDigits whole []) := by
  obtain ⟨htake, hdrop⟩ := takeWhile_all (ne_point_of_isDigits h)
  unfold read?
  rw [htake, hdrop]
  exact if_pos (by rwa [List.drop_nil, List.append_nil])

theorem read?_fraction {whole fraction : List Char} (h : IsDigits whole)
    (h' : IsDigits fraction) :
    read? (whole ++ '.' :: fraction) = some (ofDigits whole fraction) := by
  obtain ⟨htake, hdrop⟩ :=
    takeWhile_before fraction (ne_point_of_isDigits h) (show ('.' != '.') = false by decide)
  unfold read?
  rw [htake, hdrop]
  refine if_pos ⟨List.append_ne_nil_of_left_ne_nil h.1 _, fun c hc => ?_⟩
  rcases List.mem_append.mp hc with hc | hc
  · exact h.2 c hc
  · exact h'.2 c hc

end Number

/-! ## What a head says about its text -/

namespace Head

/-- What is true of a text with this head. -/
def Describes (text : List Char) : Head → Prop
  | finished => text = []
  | lexeme kind chars literal =>
    Longest chars text ∧ ∀ form : Form, form.Matches chars → form.Denotes chars kind literal
  | unterminated => (∃ later, text = '"' :: later ∧ '"' ∉ later) ∧ NoLexeme text
  | unexpected c => (∃ later, text = c :: later) ∧ NoLexeme text

/-- A lexeme has one form only, so that what it stands for need be known for that form only. -/
theorem describes_lexeme (form : Form) {text chars : List Char} {kind : TokenKind}
    {literal : Option Value} (h : form.Matches chars) (hp : chars <+: text)
    (hlongest : ∀ other, form.Matches other → other <+: text → other.length ≤ chars.length)
    (hdenotes : form.Denotes chars kind literal) :
    (lexeme kind chars literal).Describes text := by
  refine ⟨.of_form h hp hlongest, fun form' h' => ?_⟩
  rw [h.form_eq h' hp hp]
  exact hdenotes

/-- A text that starts with a lexeme starts with one of the form its first character tells. -/
theorem noLexeme_cons {c : Char} {later : List Char}
    (h : ∀ chars, (Form.ofFirst c).Matches chars → ¬chars <+: c :: later) :
    NoLexeme (c :: later) := by
  intro form chars hm hp
  obtain ⟨d, rest, rfl, rfl⟩ := hm.first
  obtain ⟨rfl, _⟩ := List.cons_prefix_cons.mp hp
  exact h _ hm hp

/-! ### Strings -/

/-- A quote in a text closes the string in front of it. -/
theorem takeWhile_of_closed {inner : List Char} (h : '"' ∉ inner) (later : List Char) :
    (inner ++ '"' :: later).takeWhile (· != '"') = inner
      ∧ (inner ++ '"' :: later).dropWhile (· != '"') = '"' :: later := by
  refine takeWhile_before later (fun c hc => bne_iff_ne.mpr ?_) rfl
  rintro rfl
  exact h hc

theorem string_describes (later : List Char) : (string later).Describes ('"' :: later) := by
  by_cases hclosed : '"' ∈ later
  · obtain ⟨inner, rest, rfl, hinner⟩ := List.eq_append_cons_of_mem hclosed
    obtain ⟨htake, hdrop⟩ := takeWhile_of_closed hinner rest
    have hhead : string (inner ++ '"' :: rest)
        = lexeme .string ('"' :: (inner ++ ['"'])) (some (.string (String.ofList inner))) := by
      unfold string
      rw [htake, hdrop]
    rw [hhead]
    refine describes_lexeme .string ⟨inner, hinner, rfl⟩ ⟨rest, by simp⟩ ?_
      ⟨rfl, inner, rfl, rfl⟩
    -- another string would be closed by the same quote
    rintro _ ⟨other, hother, rfl⟩ ⟨rest', heq⟩
    have hsame : other ++ '"' :: rest' = inner ++ '"' :: rest := by simpa using heq
    have hinner : other = inner := by
      rw [← (takeWhile_of_closed hother rest').1, hsame, htake]
    exact Nat.le_of_eq (by rw [hinner])
  · have hhead : string later = unterminated := by
      have hall : ∀ c ∈ later, (c != '"') = true := by
        intro c hc
        refine bne_iff_ne.mpr ?_
        rintro rfl
        exact hclosed hc
      unfold string
      rw [(takeWhile_all hall).2]
    rw [hhead]
    refine ⟨⟨later, rfl, hclosed⟩, noLexeme_cons ?_⟩
    rintro _ ⟨inner, _, rfl⟩ ⟨rest, heq⟩
    have hsame : inner ++ '"' :: rest = later := by simpa using heq
    rw [← hsame] at hclosed
    exact hclosed (List.mem_append_right _ (List.mem_cons_self ..))

/-! ### Words -/

/-- A word goes on as long as its characters allow. -/
theorem word_describes {c : Char} (h : isWordStart c = true) (later : List Char) :
    (word (c :: later)).Describes (c :: later) := by
  have hpart := isWordPart_of_isWordStart h
  have htake : (c :: later).takeWhile isWordPart = c :: later.takeWhile isWordPart :=
    List.takeWhile_cons_of_pos hpart
  refine describes_lexeme .word ?_ (List.takeWhile_prefix _) ?_ ⟨?_, rfl⟩
  · exact ⟨c, _, h, fun d hd => of_mem_takeWhile hd, htake⟩
  · rintro _ ⟨d, rest, hd, hrest, rfl⟩ hp
    refine length_le_takeWhile (fun e he => ?_) hp
    obtain ⟨rfl, _⟩ := List.cons_prefix_cons.mp hp
    rcases List.mem_cons.mp he with rfl | he
    · exact hpart
    · exact hrest e he
  · cases hkeyword : TokenKind.keyword?
        (String.ofList ((c :: later).takeWhile isWordPart)) with
    | none => rfl
    | some kind => exact (if_neg (TokenKind.keyword?_ne_identifier hkeyword)).symm

/-! ### Numbers -/

theorem isDigits_fractionDigits {text : List Char} (h : fractionDigits text ≠ []) :
    IsDigits (fractionDigits text) := by
  refine ⟨h, ?_⟩
  unfold fractionDigits at h ⊢
  split at h
  · exact fun c hc => of_mem_takeWhile hc
  · exact absurd rfl h

/-- The digits of the fraction behind the point of a number that starts a text. -/
theorem fraction_longest {whole fraction text : List Char} (h : IsDigits whole)
    (h' : IsDigits fraction) (hp : whole ++ '.' :: fraction <+: text) :
    text.takeWhile Char.isDigit = whole
      ∧ fraction.length ≤ (fractionDigits (text.dropWhile Char.isDigit)).length := by
  obtain ⟨later, rfl⟩ := hp
  obtain ⟨htake, hdrop⟩ :=
    takeWhile_before (fraction ++ later) h.2 (show '.'.isDigit = false by decide)
  rw [List.append_assoc, List.cons_append, htake, hdrop]
  exact ⟨rfl, length_le_takeWhile h'.2 (List.prefix_append ..)⟩

/-- A number without a fraction goes on to the last of its digits, and one with a fraction to the
last digit of that. -/
theorem number_describes {text : List Char} (h : IsDigits (text.takeWhile Char.isDigit)) :
    (number text).Describes text := by
  cases hfraction : fractionDigits (text.dropWhile Char.isDigit) with
  | nil =>
      have hhead : number text = lexeme .number (text.takeWhile Char.isDigit)
          (some (.number (Number.ofDigits (text.takeWhile Char.isDigit) []))) := by
        unfold number
        rw [hfraction]
        rfl
      rw [hhead]
      refine describes_lexeme .number (Or.inl h) (number_isPrefix hhead) ?_
        ⟨rfl, _, Number.read?_whole h, rfl⟩
      rintro other (hother | ⟨whole, digits, hwhole, hdigits, rfl⟩) hp
      · exact length_le_takeWhile hother.2 hp
      -- the digits behind the point would be a fraction
      · have hlength := (fraction_longest hwhole hdigits hp).2
        rw [hfraction] at hlength
        exact absurd (List.eq_nil_of_length_eq_zero (Nat.le_zero.mp hlength)) hdigits.1
  | cons d later =>
      have hdigits : IsDigits (d :: later) := by
        rw [← hfraction]
        exact isDigits_fractionDigits (by rw [hfraction]; exact List.cons_ne_nil d later)
      have hhead : number text
          = lexeme .number (text.takeWhile Char.isDigit ++ '.' :: d :: later)
            (some (.number (Number.ofDigits (text.takeWhile Char.isDigit) (d :: later)))) := by
        unfold number
        rw [hfraction]
        rfl
      rw [hhead]
      refine describes_lexeme .number (Or.inr ⟨_, _, h, hdigits, rfl⟩)
        (number_isPrefix hhead) ?_ ⟨rfl, _, Number.read?_fraction h hdigits, rfl⟩
      rintro other (hother | ⟨whole, digits, hwhole, hother, rfl⟩) hp
      · have hlength := length_le_takeWhile hother.2 hp
        rw [List.length_append]
        omega
      · obtain ⟨hsame, hlength⟩ := fraction_longest hwhole hother hp
        rw [hfraction] at hlength
        rw [hsame, List.length_append, List.length_append, List.length_cons, List.length_cons]
        omega

/-! ### Operators -/

/-- The operators stand in the order of their lengths, so that the first one found is the
longest. -/
theorem operator?_longest {text chars other : List Char} {kind kind' : TokenKind}
    (h : operator? text = some (chars, kind)) (hother : (other, kind') ∈ operators)
    (hp : other <+: text) : other.length ≤ chars.length := by
  have hordered : operators.Pairwise fun o o' => o'.1.length ≤ o.1.length := by decide
  obtain ⟨_, before, behind, hsplit, hbefore⟩ := List.find?_eq_some_iff_append.mp h
  rw [hsplit] at hordered hother
  rcases List.mem_append.mp hother with hother | hother
  · have hnot : other.isPrefixOf text = false :=
      (Bool.not_eq_eq_eq_not ..).mp (hbefore _ hother)
    rw [List.isPrefixOf_iff_prefix.mpr hp] at hnot
    cases hnot
  · rcases List.mem_cons.mp hother with heq | hother
    · cases heq
      exact Nat.le_refl _
    · exact List.rel_of_pairwise_cons (List.pairwise_append.mp hordered).2.1 hother

/-- A text that starts with no quote, digit or letter starts with an operator or with no lexeme. -/
theorem operator_describes {c : Char} (h : Form.ofFirst c = .operator) (later : List Char) :
    Describes (c :: later) (match operator? (c :: later) with
      | some (chars, kind) => lexeme kind chars none
      | none => unexpected c) := by
  cases hfound : operator? (c :: later) with
  | some found =>
      obtain ⟨chars, kind⟩ := found
      have hmem : (chars, kind) ∈ operators := List.mem_of_find?_eq_some hfound
      refine describes_lexeme .operator ⟨kind, hmem⟩ (operator?_isPrefix hfound) ?_
        ⟨hmem, rfl⟩
      rintro other ⟨kind', hother⟩ hp
      exact operator?_longest hfound hother hp
  | none =>
      refine ⟨⟨later, rfl⟩, noLexeme_cons ?_⟩
      rw [h]
      rintro chars ⟨kind, hmem⟩ hp
      exact List.find?_eq_none.mp hfound _ hmem (List.isPrefixOf_iff_prefix.mpr hp)

/-! ### Every text -/

/-- **What is found at the start of a text is the longest lexeme there**, and where none is found
there is none. -/
theorem ofText_describes (text : List Char) : (ofText text).Describes text := by
  cases text with
  | nil => rfl
  | cons c later =>
    simp only [ofText]
    by_cases hquote : c = '"'
    · subst hquote
      exact string_describes later
    · rw [if_neg (mt beq_iff_eq.mp hquote)]
      by_cases hdigit : c.isDigit = true
      · rw [if_pos hdigit]
        refine number_describes ⟨?_, fun d hd => of_mem_takeWhile hd⟩
        rw [List.takeWhile_cons_of_pos hdigit]
        exact List.cons_ne_nil _ _
      · rw [if_neg hdigit]
        by_cases hstart : isWordStart c = true
        · rw [if_pos hstart]
          exact word_describes hstart later
        · rw [if_neg hstart]
          refine operator_describes ?_ later
          rw [Form.ofFirst, if_neg hquote, if_neg hdigit, if_neg hstart]

end Head

/-! ## The next token -/

namespace Cursor

/-- Reading goes by the head of the text behind the trivia, and by the line there. -/
theorem next_eq {c : Cursor} {rest : List Char} {line : Nat} (h : c.skipTrivia = ⟨rest, line⟩) :
    c.next = match Head.ofText rest with
      | .finished => (.ok (Token.atEnd line), ⟨rest, line⟩)
      | .lexeme kind chars literal =>
        (.ok ⟨kind, String.ofList chars, literal, line⟩,
          (⟨rest, line⟩ : Cursor).advance chars.length)
      | .unterminated =>
        (.error (.unterminatedString line), (⟨rest, line⟩ : Cursor).advance rest.length)
      | .unexpected char => (.error (.unexpectedCharacter char line), ⟨rest, line⟩) := by
  cases hhead : Head.ofText rest <;> simp only [next, h, hhead]

end Cursor

/-- Of `1.2.3` the number `1.2` is read, and behind it the point. -/
example :
    let c := Cursor.start "1.2.3"
    c.next.1.toOption.map (·.lexeme) = some "1.2"
      ∧ c.next.2.next.1.toOption.map (·.kind) = some .dot := by decide +kernel

end Lox
