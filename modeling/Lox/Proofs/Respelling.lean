import Lox.Proofs.LayoutFree
import Lox.Proofs.Written

/-!
# Lexemes written out again

A token is cut out of its text by what follows it there: a point behind digits, an equals sign
behind an operator, a second slash. Taken out of the text and written out with blank characters
behind it, its lexeme has nothing of this any more. It is still read as the token that it was,
because no lexeme but a string has a blank character in it, and a string ends at its own quote
(`Longest.of_blank`). So the lexemes of a text, with any blank characters between them, have the
tokens of the text.
-/

namespace Lox

/-! ## No lexeme goes on over a blank character -/

/-- The text is over, or it goes on with a blank character. -/
def Blank (text : List Char) : Prop := ∀ c, text.head? = some c → Text.isBlank c = true

theorem isWordPart_of_isBlank {c : Char} (h : Text.isBlank c = true) : isWordPart c = false := by
  obtain ⟨range, hrange, hlow, hhigh⟩ :=
    (Text.Ranges.holds_iff Text.blankRanges_ascends c.toNat).mp h
  -- each of the blank code points is looked up in both tables
  have htables : ∀ range ∈ Text.blankRanges, ∀ n < range.2 + 1 - range.1,
      Text.alphabeticRanges.holds (range.1 + n) = false
        ∧ Text.numericRanges.holds (range.1 + n) = false := by decide +kernel
  obtain ⟨hletter, hnumeral⟩ := htables range hrange (c.toNat - range.1) (by omega)
  rw [Nat.add_sub_cancel' hlow] at hletter hnumeral
  have hunderscore : c ≠ '_' := by
    intro hc
    rw [hc] at h
    exact absurd h (by decide)
  rw [isWordPart, Text.isAlphabetic, Text.isNumeric, hletter, hnumeral, Bool.false_or,
    Bool.false_or]
  exact beq_eq_false_iff_ne.mpr hunderscore

theorem isWordPart_of_isDigit {c : Char} (h : c.isDigit = true) : isWordPart c = true := by
  rw [isWordPart, Text.isNumeric_of_isDigit h, Bool.or_true, Bool.true_or]

namespace Form

variable {form : Form} {chars : List Char}

theorem Matches.not_blank (h : form.Matches chars) (hstring : form ≠ .string) :
    ∀ c ∈ chars, Text.isBlank c = false := by
  have hpart : ∀ c, isWordPart c = true → Text.isBlank c = false := by
    intro c hc
    by_contra hblank
    rw [isWordPart_of_isBlank (Bool.eq_true_of_not_eq_false hblank)] at hc
    cases hc
  have hdigits : ∀ {chars : List Char}, IsDigits chars → ∀ c ∈ chars, Text.isBlank c = false :=
    fun h c hc => hpart c (isWordPart_of_isDigit (h.2 c hc))
  intro c hc
  cases form with
  | operator =>
      have hall : ∀ o ∈ operators, o.1.all (fun c => !Text.isBlank c) = true := by decide
      obtain ⟨kind, hmem⟩ := h
      exact (Bool.not_eq_true' _).mp (List.all_eq_true.mp (hall _ hmem) c hc)
  | string => exact absurd rfl hstring
  | number =>
      rcases h with h | ⟨whole, fraction, hwhole, hfraction, rfl⟩
      · exact hdigits h c hc
      · rcases List.mem_append.mp hc with hc | hc
        · exact hdigits hwhole c hc
        · rcases List.mem_cons.mp hc with rfl | hc
          · decide
          · exact hdigits hfraction c hc
  | word =>
      obtain ⟨first, later, hfirst, hlater, rfl⟩ := h
      rcases List.mem_cons.mp hc with rfl | hc
      · exact hpart c (isWordPart_of_isWordStart hfirst)
      · exact hpart c (hlater c hc)

end Form

/-- **In front of a blank character, a lexeme is the longest one.** -/
theorem Longest.of_blank {form : Form} {chars rest : List Char} (h : form.Matches chars)
    (hrest : Blank rest) : Longest chars (chars ++ rest) := by
  refine .of_form h (List.prefix_append ..) fun other hother hp => ?_
  by_cases hstring : form = .string
  -- two strings at the start of one text are closed by the same quote
  · subst hstring
    obtain ⟨inner, hinner, rfl⟩ := h
    obtain ⟨inner', hinner', rfl⟩ := hother
    obtain ⟨later, heq⟩ := hp
    have hsame : inner' ++ '"' :: later = inner ++ '"' :: rest := by simpa using heq
    have hsame : inner' = inner := by
      rw [← (Head.takeWhile_of_closed hinner' later).1, hsame,
        (Head.takeWhile_of_closed hinner rest).1]
    exact Nat.le_of_eq (by rw [hsame])
  -- and any other lexeme would have to go on over the blank character
  · by_contra hlonger
    obtain ⟨more, rfl⟩ := List.prefix_of_prefix_length_le (List.prefix_append chars rest) hp
      (by omega)
    rw [List.prefix_append_right_inj] at hp
    cases more with
    | nil => exact hlonger (by rw [List.append_nil])
    | cons c more =>
        obtain ⟨later, rfl⟩ := hp
        have hblank := hrest c rfl
        rw [hother.not_blank hstring c (by simp)] at hblank
        cases hblank

namespace Token.Spelled

variable {t : Token} {rest : List Char}

/-- **A token is read again from its lexeme**, wherever a blank character or nothing follows. -/
theorem ofText_eq (h : t.Spelled) (hrest : Blank rest) :
    Head.ofText (t.lexeme.toList ++ rest) = .lexeme t.kind t.lexeme.toList t.literal := by
  obtain ⟨form, hmatches, _⟩ := id h
  have hlongest := Longest.of_blank hmatches hrest
  have hsome := hmatches.ne_nil
  have hdescribes := Head.ofText_describes (t.lexeme.toList ++ rest)
  cases hhead : Head.ofText (t.lexeme.toList ++ rest) with
  | finished =>
      rw [hhead] at hdescribes
      exact absurd (List.append_eq_nil_iff.mp hdescribes).1 hsome
  | unterminated =>
      rw [hhead] at hdescribes
      exact absurd hlongest.isPrefix (hdescribes.2 form _ hmatches)
  | unexpected c =>
      rw [hhead] at hdescribes
      exact absurd hlongest.isPrefix (hdescribes.2 form _ hmatches)
  | lexeme kind chars literal =>
      rw [hhead] at hdescribes
      obtain ⟨hread, hdenotes⟩ := hdescribes
      obtain ⟨form', hmatches'⟩ := hread.isLexeme
      have hlength : chars.length = t.lexeme.toList.length :=
        Nat.le_antisymm (hlongest.longest form' _ hmatches' hread.isPrefix)
          (hread.longest form _ hmatches hlongest.isPrefix)
      obtain rfl : chars = t.lexeme.toList :=
        (List.prefix_of_prefix_length_le hread.isPrefix hlongest.isPrefix hlength.le).eq_of_length
          hlength
      let read : Token := ⟨kind, t.lexeme, literal, t.line⟩
      have hspelled : read.Spelled := ⟨form, hmatches, hdenotes form hmatches⟩
      obtain ⟨hkind, hliteral⟩ := hspelled.eq_of_lexeme h rfl
      rw [show kind = t.kind from hkind, show literal = t.literal from hliteral]

/-- Nothing of a lexeme is skipped. -/
theorem bare (h : t.Spelled) (hrest : Blank rest) : Bare (t.lexeme.toList ++ rest) := by
  obtain ⟨form, hmatches, _⟩ := h
  obtain ⟨c, later, hchars, hform⟩ := hmatches.first
  rw [hchars] at hmatches ⊢
  refine ⟨fun d hd => ?_, fun hslashes => ?_⟩
  · cases hd
    by_cases hstring : form = .string
    · subst hstring
      obtain ⟨inner, _, hquote⟩ := hmatches
      rw [(List.cons.inj hquote).1]
      decide
    · exact hmatches.not_blank hstring c (List.mem_cons_self ..)
  · obtain ⟨rfl, hsecond⟩ := List.cons_prefix_cons.mp hslashes
    -- a lexeme that starts with a slash has no other character
    have hall : ∀ o ∈ operators, o.1.head? = some '/' → o.1 = ['/'] := by decide
    obtain rfl : form = .operator := hform.symm.trans (by decide +kernel)
    obtain ⟨kind, hmem⟩ := hmatches
    obtain rfl : later = [] := (List.cons.inj (hall _ hmem rfl)).2
    obtain ⟨more, rfl⟩ := hsecond
    exact absurd (hrest '/' rfl) (by decide)

end Token.Spelled

/-! ## One token behind blank characters -/

/-- Blank characters are trivia, whatever follows them. -/
theorem Trivia.of_blank {gap : List Char} (h : ∀ c ∈ gap, Text.isBlank c = true)
    (after : List Char) : Trivia after gap := by
  induction gap with
  | nil => exact .none
  | cons c gap ih =>
      rw [List.forall_mem_cons] at h
      exact .blank h.1 (ih h.2)

/-- A token behind blank characters is read, and nothing behind it is passed. -/
theorem Cursor.next_of_spelled {t : Token} (h : t.Spelled) {gap rest : List Char}
    (hgap : ∀ c ∈ gap, Text.isBlank c = true) (hrest : Blank rest) (line : Nat) :
    ∃ line' last, (⟨gap ++ (t.lexeme.toList ++ rest), line⟩ : Cursor).next
      = (.ok { t with line := line' }, ⟨rest, last⟩) := by
  have hskip := skipTrivia_of_trivia (Trivia.of_blank hgap _) (h.bare hrest) line
  have hnext := next_eq hskip
  rw [h.ofText_eq hrest] at hnext
  dsimp only at hnext
  rw [advance_length, String.ofList_toList] at hnext
  exact ⟨_, _, hnext⟩

/-! ## All tokens of a text -/

namespace Token

/-- The lexemes of the tokens, each behind its gap. -/
def spaced (gap : Nat → String) : List Token → String
  | [] => ""
  | t :: ts => gap 0 ++ t.lexeme ++ spaced (fun i => gap (i + 1)) ts

/-- The lexemes of the tokens, with a separator between each two of them. -/
def joined (separator : Nat → String) : List Token → String
  | [] => ""
  | t :: ts => t.lexeme ++ spaced separator ts

end Token

/-- Some blank characters. -/
def IsBlanks (separator : String) : Prop :=
  separator ≠ "" ∧ ∀ c ∈ separator.toList, Text.isBlank c = true

theorem Token.spaced_blank {gap : Nat → String} (hgap : ∀ i, IsBlanks (gap i)) (ts : List Token) :
    Blank (spaced gap ts).toList := by
  cases ts with
  | nil => nofun
  | cons t ts =>
      obtain ⟨hne, hblank⟩ := hgap 0
      obtain ⟨c, later, hchars⟩ :=
        List.exists_cons_of_ne_nil (mt String.toList_eq_nil_iff.mp hne)
      intro d hd
      rw [spaced, String.toList_append, String.toList_append, hchars] at hd
      cases hd
      exact hblank c (by rw [hchars]; exact List.mem_cons_self ..)

namespace Scan

/-- A place at which lexemes stand behind their gaps has the tokens that they are of, by induction
on the tokens. -/
theorem ofCursor_spaced {ts : List Token} (hts : ∀ t ∈ ts, t.Spelled ∧ t.kind ≠ .endOfText)
    {gap : Nat → String} (hgap : ∀ i, IsBlanks (gap i)) (line : Nat) :
    ∃ us last, ofCursor ⟨(Token.spaced gap ts).toList, line⟩ = ⟨us, .finished last⟩
      ∧ us.map Token.content = ts.map Token.content := by
  induction ts generalizing gap line with
  | nil =>
      have hnext : (⟨[], line⟩ : Cursor).next = (.ok (Token.atEnd line), ⟨[], line⟩) := rfl
      exact ⟨[], line, ofCursor_of_end hnext rfl, rfl⟩
  | cons t ts ih =>
      rw [List.forall_mem_cons] at hts
      obtain ⟨⟨hspelled, hkind⟩, hts⟩ := hts
      have hlater : ∀ i, IsBlanks (gap (i + 1)) := fun i => hgap (i + 1)
      obtain ⟨line', last, hnext⟩ := Cursor.next_of_spelled hspelled (hgap 0).2
        (Token.spaced_blank hlater ts) line
      obtain ⟨us, final, hscan, hcontents⟩ := ih hts hlater last
      have hread := ofCursor_of_token hnext hkind
      rw [hscan, ← List.append_assoc] at hread
      rw [Token.spaced, String.toList_append, String.toList_append]
      exact ⟨_, final, hread, congrArg (t.content :: ·) hcontents⟩

/-- So has a text of the lexemes, which starts with one of them. -/
theorem ofText_joined {ts : List Token} (hts : ∀ t ∈ ts, t.Spelled ∧ t.kind ≠ .endOfText)
    {separator : Nat → String} (hseparator : ∀ i, IsBlanks (separator i)) :
    ∃ us last, ofText (Token.joined separator ts) = ⟨us, .finished last⟩
      ∧ us.map Token.content = ts.map Token.content := by
  cases ts with
  | nil => exact ⟨[], 1, rfl, rfl⟩
  | cons t ts =>
      rw [List.forall_mem_cons] at hts
      obtain ⟨⟨hspelled, hkind⟩, hts⟩ := hts
      have hlater := Token.spaced_blank hseparator ts
      obtain ⟨line, last, hnext⟩ :=
        Cursor.next_of_spelled hspelled (List.forall_mem_nil _) hlater 1
      obtain ⟨us, final, hscan, hcontents⟩ := ofCursor_spaced hts hseparator last
      have hread := ofCursor_of_token hnext hkind
      rw [hscan, List.nil_append, ← String.toList_append] at hread
      exact ⟨_, final, hread, congrArg (t.content :: ·) hcontents⟩

end Scan

/--
**The lexemes of a text have its tokens.**

A text splits into tokens. Their lexemes, the one of the end left out, are written out with any
blank characters between them. Then this text splits into tokens as well, of the same kinds, with
the same lexemes and literals in the same order.
-/
theorem tokenize_joined {text : String} {ts : List Token} (h : tokenize text = .ok ts)
    {separator : Nat → String} (hseparator : ∀ i, IsBlanks (separator i)) :
    ∃ us, tokenize (Token.joined separator ts.dropLast) = .ok us
      ∧ us.map Token.content = ts.map Token.content := by
  obtain ⟨tokens, line, hscan, rfl⟩ := tokenize_eq_ok.mp h
  have htokens : ∀ t ∈ tokens, t.Spelled ∧ t.kind ≠ .endOfText := by
    intro t ht
    have hmem : t ∈ (Scan.ofText text).tokens := by rwa [hscan]
    exact ⟨Scan.ofCursor_spelled _ t hmem, (Scan.ofText_lexed text t hmem).not_end⟩
  obtain ⟨us, last, hjoined, hcontents⟩ := Scan.ofText_joined htokens hseparator
  rw [List.dropLast_concat]
  refine ⟨_, tokenize_eq_ok.mpr ⟨us, last, hjoined, rfl⟩, ?_⟩
  rw [List.map_append, List.map_append, hcontents]
  rfl

/-- A point behind a digit, two operators side by side and a string with a line end, all of them
written apart with line ends and a wide space. -/
theorem tokenize_joined_crowded :
    let one : Value := .number (Number.ofDigits ['1'] [])
    let tokens (lines : List Nat) : List Token :=
      lines.zipWith (fun line (t : Token) => { t with line })
        [⟨.number, "1", some one, 0⟩, ⟨.dot, ".", none, 0⟩, ⟨.slash, "/", none, 0⟩,
          ⟨.number, "1", some one, 0⟩, ⟨.equalEqual, "==", none, 0⟩,
          ⟨.string, "\"\n\"", some (.string "\n"), 0⟩, ⟨.identifier, "é", none, 0⟩,
          ⟨.endOfText, "", none, 0⟩]
    let separator : Nat → String := fun i => if i = 1 then "\u3000" else "\n"
    let apart := "1\n.\u3000/\n1\n==\n\"\n\"\né"
    tokenize "1./1==\"\n\"é" = .ok (tokens [1, 1, 1, 1, 1, 1, 2, 2])
      ∧ (∀ i, IsBlanks (separator i))
      ∧ Token.joined separator (tokens [1, 1, 1, 1, 1, 1, 2, 2]).dropLast = apart
      ∧ tokenize apart = .ok (tokens [1, 2, 2, 3, 4, 5, 7, 7])
      ∧ ∃ us, tokenize apart = .ok us
          ∧ us.map Token.content = (tokens [1, 1, 1, 1, 1, 1, 2, 2]).map Token.content := by
  intro one tokens separator apart
  have htext : tokenize "1./1==\"\n\"é" = .ok (tokens [1, 1, 1, 1, 1, 1, 2, 2]) := rfl
  have hseparator : ∀ i, IsBlanks (separator i) := by
    intro i
    by_cases hi : i = 1
    · rw [show separator i = "\u3000" from if_pos hi]
      exact ⟨by decide, List.all_eq_true.mp rfl⟩
    · rw [show separator i = "\n" from if_neg hi]
      exact ⟨by decide, List.all_eq_true.mp rfl⟩
  have hscan : Scan.ofText "1\n.\u3000/\n1\n==\n\"\n\"\né"
      = ⟨(tokens [1, 2, 2, 3, 4, 5, 7]), .finished 7⟩ := rfl
  have hjoined : Token.joined separator (tokens [1, 1, 1, 1, 1, 1, 2, 2]).dropLast = apart := rfl
  have hus := tokenize_joined htext hseparator
  rw [hjoined] at hus
  exact ⟨htext, hseparator, hjoined, tokenize_eq_ok.mpr ⟨_, _, hscan, rfl⟩, hus⟩

end Lox
