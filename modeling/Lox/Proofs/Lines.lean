import Lox.Proofs.Reading

/-!
# Texts one below the other

A line end separates for certain. Behind a text that splits into tokens it ends a comment, it goes
on with no lexeme, and nothing of the text in front of it has to be remembered but the number of its
lines. So two texts with a line end between them split as each of them does alone, the second one
further down.

The argument is about one reading. What it skips and what it takes is the same in front of a line
end as in front of the end of the text (`Trivia.join`, `Head.ofText_line`), and where the first text
is over, the reading goes on into the second one (`Cursor.next_join`).
-/

namespace Lox

/-! ## Trivia in front of a line end -/

/-- Only a comment on the last line depends on what follows the trivia. -/
theorem Trivia.of_ne_nil {gap rest rest' : List Char} (h : Trivia rest gap) (hne : rest ≠ []) :
    Trivia rest' gap := by
  induction h with
  | none => exact .none
  | blank hc _ ih => exact .blank hc ih
  | comment hbody _ ih => exact .comment hbody ih
  | lastComment _ hafter => exact absurd hafter hne

/-- Trivia up to the end of a text, a line end, and trivia again. -/
theorem Trivia.join {gap gap' rest : List Char} (h : Trivia [] gap) (h' : Trivia rest gap') :
    Trivia rest (gap ++ '\n' :: gap') := by
  have hline : Trivia rest ('\n' :: gap') := .blank (by decide) h'
  induction h with
  | none => exact hline
  | blank hc _ ih => exact .blank hc ih
  | @comment body gap hbody _ ih =>
    have hsplit : '/' :: '/' :: (body ++ '\n' :: gap) ++ '\n' :: gap'
        = '/' :: '/' :: (body ++ '\n' :: (gap ++ '\n' :: gap')) := by simp
    rw [hsplit]
    exact .comment hbody ih
  -- the comment on the last line is no longer on the last line
  | lastComment hbody _ => exact .comment hbody hline

/-- A text that goes on with a line end starts with nothing new to skip. -/
theorem Bare.line {text : List Char} (h : Bare text) (hne : text ≠ []) (below : List Char) :
    Bare (text ++ '\n' :: below) := by
  obtain ⟨c, later, rfl⟩ := List.exists_cons_of_ne_nil hne
  refine ⟨fun d hd => h.1 d hd, ?_⟩
  rintro ⟨rest, heq⟩
  cases later with
  | nil => simp at heq
  | cons d later =>
    have hfirst : '/' = c := (List.cons_eq_cons.mp heq).1
    have hsecond : '/' = d := (List.cons_eq_cons.mp (List.cons_eq_cons.mp heq).2).1
    refine h.2 ⟨later, ?_⟩
    rw [← hfirst, ← hsecond]
    rfl

/-! ## Lexemes in front of a line end -/

section Classes

variable {p : Char → Bool}

theorem takeWhile_line (h : p '\n' = false) (text below : List Char) :
    (text ++ '\n' :: below).takeWhile p = text.takeWhile p := by
  induction text with
  | nil => exact List.takeWhile_cons_of_neg (by rw [h]; decide)
  | cons c text ih =>
    by_cases hc : p c = true
    · rw [List.cons_append, List.takeWhile_cons_of_pos hc, List.takeWhile_cons_of_pos hc, ih]
    · rw [List.cons_append, List.takeWhile_cons_of_neg hc, List.takeWhile_cons_of_neg hc]

theorem dropWhile_line (h : p '\n' = false) (text below : List Char) :
    (text ++ '\n' :: below).dropWhile p = text.dropWhile p ++ '\n' :: below := by
  induction text with
  | nil => exact List.dropWhile_cons_of_neg (by rw [h]; decide)
  | cons c text ih =>
    by_cases hc : p c = true
    · rw [List.cons_append, List.dropWhile_cons_of_pos hc, List.dropWhile_cons_of_pos hc, ih]
    · rw [List.cons_append, List.dropWhile_cons_of_neg hc, List.dropWhile_cons_of_neg hc]
      rfl

end Classes

theorem fractionDigits_line (text below : List Char) :
    fractionDigits (text ++ '\n' :: below) = fractionDigits text := by
  cases text with
  | nil => rfl
  | cons c text =>
    by_cases hc : c = '.'
    · subst hc
      exact takeWhile_line (by decide) text below
    · have hnone : ∀ later, fractionDigits (c :: later) = [] := by
        intro later
        unfold fractionDigits
        split
        · rename_i heq
          exact absurd (List.cons_eq_cons.mp heq).1 hc
        · rfl
      rw [List.cons_append, hnone, hnone]

/-- Characters without a line end are in front of a line end or not there at all. -/
theorem isPrefixOf_line {chars : List Char} (h : '\n' ∉ chars) (text below : List Char) :
    chars.isPrefixOf (text ++ '\n' :: below) = chars.isPrefixOf text := by
  induction chars generalizing text with
  | nil => rfl
  | cons c chars ih =>
    cases text with
    | nil =>
      have hc : (c == '\n') = false := by
        refine beq_eq_false_iff_ne.mpr ?_
        rintro rfl
        exact h (List.mem_cons_self ..)
      have hnot : (c :: chars).isPrefixOf ('\n' :: below) = (c == '\n' && chars.isPrefixOf below) :=
        rfl
      rw [List.nil_append, hnot, hc, Bool.false_and]
      rfl
    | cons d text =>
      have hlater := ih (fun hmem => h (List.mem_cons_of_mem _ hmem)) text
      rw [List.cons_append, List.isPrefixOf, List.isPrefixOf, hlater]

theorem operator?_line (text below : List Char) :
    operator? (text ++ '\n' :: below) = operator? text := by
  have hnone : ∀ o ∈ operators, '\n' ∉ o.1 := by decide
  unfold operator?
  revert hnone
  generalize operators = known
  intro hnone
  induction known with
  | nil => rfl
  | cons o known ih =>
    have hhead := isPrefixOf_line (hnone o (List.mem_cons_self ..)) text below
    have htail := ih fun o' ho' => hnone o' (List.mem_cons_of_mem _ ho')
    rw [List.find?_cons, List.find?_cons]
    dsimp only
    rw [hhead, htail]

namespace Head

theorem number_line (text below : List Char) : number (text ++ '\n' :: below) = number text := by
  unfold number
  rw [takeWhile_line (by decide), dropWhile_line (by decide), fractionDigits_line]

theorem word_line (text below : List Char) : word (text ++ '\n' :: below) = word text := by
  unfold word
  rw [takeWhile_line (by decide +kernel)]

/-- A string that is closed in front of a line end is not touched by what is below. -/
theorem string_line {text chars : List Char} {kind : TokenKind} {literal : Option Value}
    (h : string text = lexeme kind chars literal) (below : List Char) :
    string (text ++ '\n' :: below) = string text := by
  by_cases hclosed : '"' ∈ text
  · obtain ⟨inner, rest, rfl, hinner⟩ := List.eq_append_cons_of_mem hclosed
    have hsplit : inner ++ '"' :: rest ++ '\n' :: below
        = inner ++ '"' :: (rest ++ '\n' :: below) := by simp
    have hshort := takeWhile_of_closed hinner rest
    have hlong := takeWhile_of_closed hinner (rest ++ '\n' :: below)
    unfold string
    rw [hsplit, hshort.1, hshort.2, hlong.1, hlong.2]
  · have hall : ∀ c ∈ text, (c != '"') = true := by
      intro c hc
      refine bne_iff_ne.mpr ?_
      rintro rfl
      exact hclosed hc
    unfold string at h
    rw [(takeWhile_all hall).2] at h
    cases h

/-- **A lexeme is the same in front of a line end as in front of the end of the text.** -/
theorem ofText_line {text chars : List Char} {kind : TokenKind} {literal : Option Value}
    (h : ofText text = lexeme kind chars literal) (below : List Char) :
    ofText (text ++ '\n' :: below) = lexeme kind chars literal := by
  cases text with
  | nil => cases h
  | cons c later =>
    rw [← h, List.cons_append, ofText, ofText]
    rw [ofText] at h
    by_cases hquote : (c == '"') = true
    · rw [if_pos hquote] at h
      rw [if_pos hquote, if_pos hquote]
      exact string_line h below
    · rw [if_neg hquote, if_neg hquote]
      by_cases hdigit : c.isDigit = true
      · rw [if_pos hdigit, if_pos hdigit]
        exact number_line (c :: later) below
      · rw [if_neg hdigit, if_neg hdigit]
        by_cases hstart : isWordStart c = true
        · rw [if_pos hstart, if_pos hstart]
          exact word_line (c :: later) below
        · have hoperator := operator?_line (c :: later) below
          rw [List.cons_append] at hoperator
          rw [if_neg hstart, if_neg hstart, hoperator]

end Head

/-! ## Further down -/

/-- The same token, `n` lines further down. -/
def Token.down (n : Nat) (t : Token) : Token := { t with line := t.line + n }

/-- The same error, `n` lines further down. -/
def LexError.down (n : Nat) : LexError → LexError
  | unexpectedCharacter c line => unexpectedCharacter c (line + n)
  | unterminatedString line => unterminatedString (line + n)

/-- The same ending, `n` lines further down. -/
def Ending.down (n : Nat) : Ending → Ending
  | finished line => finished (line + n)
  | unexpected c line => unexpected c (line + n)
  | unterminated line last => unterminated (line + n) (last + n)

namespace Cursor

/-- The same rest of a text, `n` lines further down. -/
def down (n : Nat) (c : Cursor) : Cursor := ⟨c.rest, c.line + n⟩

theorem advance_down (n k : Nat) (c : Cursor) : (c.down n).advance k = (c.advance k).down n := by
  simp only [down, advance, Nat.add_right_comm]

theorem skipTrivia_down (n : Nat) (c : Cursor) : (c.down n).skipTrivia = c.skipTrivia.down n :=
  advance_down n _ c

/-- A reading does not depend on the line it starts on. -/
theorem next_down (n : Nat) (c : Cursor) :
    (c.down n).next
      = ((c.next.1.map (Token.down n)).mapError (LexError.down n), c.next.2.down n) := by
  obtain ⟨⟨rest, line⟩, hskip⟩ : ∃ bare, c.skipTrivia = bare := ⟨_, rfl⟩
  have hskip' : (c.down n).skipTrivia = ⟨rest, line + n⟩ := by
    rw [skipTrivia_down, hskip]
    rfl
  have hadvance : ∀ k, (⟨rest, line + n⟩ : Cursor).advance k
      = ((⟨rest, line⟩ : Cursor).advance k).down n := fun k => advance_down n k ⟨rest, line⟩
  rw [next_eq hskip, next_eq hskip']
  cases Head.ofText rest with
  | finished => rfl
  | lexeme kind chars literal => exact Prod.ext rfl (hadvance _)
  | unterminated => exact Prod.ext rfl (hadvance _)
  | unexpected char => rfl

/-! ## One reading of two texts -/

/-- The place at which a line end and another text follow. -/
def join (c : Cursor) (below : List Char) : Cursor := ⟨c.rest ++ '\n' :: below, c.line⟩

variable {c c' : Cursor} {t : Token}

theorem start_join (a b : String) : start (a ++ "\n" ++ b) = (start a).join b.toList := by
  show (⟨_, 1⟩ : Cursor) = ⟨_, 1⟩
  rw [String.toList_append, String.toList_append, List.append_assoc]
  rfl

/-- A token of the first text is read without regard to the second one. -/
theorem next_join (h : c.next = (.ok t, c')) (ht : t.kind ≠ .endOfText) (below : List Char) :
    (c.join below).next = (.ok t, c'.join below) := by
  cases reads_of_next h with
  | finished => exact absurd rfl ht
  | @token gap later _ heq hline htrivia hbare hhead =>
      have hne : t.lexeme.toList ++ later ≠ [] :=
        List.append_ne_nil_of_left_ne_nil (Head.lexeme_proper hhead).1 _
      have hrest : c.join below
          = ⟨gap ++ (t.lexeme.toList ++ later ++ '\n' :: below), c.line⟩ := by
        rw [join, heq, List.append_assoc]
      have htrivia' : Trivia (t.lexeme.toList ++ later ++ '\n' :: below) gap :=
        htrivia.of_ne_nil hne
      have hskip := skipTrivia_of_trivia htrivia' (hbare.line hne below) c.line
      rw [← hrest, ← hline] at hskip
      rw [next_eq hskip, Head.ofText_line hhead below]
      dsimp only
      rw [String.ofList_toList, List.append_assoc, advance_length]
      rfl

/-- Where the first text is over, what is read is the second one's, one line further down. -/
theorem next_join_of_end (h : c.next = (.ok t, c')) (ht : t.kind = .endOfText)
    (below : List Char) : (c.join below).next = (⟨below, t.line + 1⟩ : Cursor).next := by
  have hskip : (c.join below).skipTrivia = (⟨below, t.line + 1⟩ : Cursor).skipTrivia := by
    cases reads_of_next h with
    | token _ _ _ _ hhead => exact absurd ht (Head.lexeme_proper hhead).2
    | @finished gap line heq hline htrivia =>
        obtain ⟨gap', rest, hsplit, htrivia', hbare, hskip'⟩ :=
          skipTrivia_spec ⟨below, line + 1⟩
        have hrest : c.join below = ⟨gap ++ '\n' :: gap' ++ rest, c.line⟩ := by
          rw [join, heq, show below = _ from hsplit, List.append_assoc, List.cons_append]
        have hlines : c.line + (gap ++ '\n' :: gap').count '\n'
            = line + 1 + gap'.count '\n' := by
          rw [List.count_append, List.count_cons_self, hline]
          omega
        rw [hrest, skipTrivia_of_trivia (htrivia.join htrivia') hbare, hlines]
        exact hskip'.symm
  unfold next
  rw [hskip]

end Cursor

/-! ## All readings of two texts -/

namespace Scan

variable {c d : Cursor}

/-- Places where the same is read have the same scan. -/
theorem ofCursor_congr (h : c.next = d.next) : ofCursor c = ofCursor d := by
  have hc := upTo_eq_ofCursor c (c.rest.length + d.rest.length + 1) (by omega)
  have hd := upTo_eq_ofCursor d (c.rest.length + d.rest.length + 1) (by omega)
  rw [← hc, ← hd, upTo, upTo, h]

/-- The scan of a place further down is the same, further down. -/
theorem ofCursor_down (n : Nat) (c : Cursor) :
    ofCursor (c.down n)
      = ⟨(ofCursor c).tokens.map (Token.down n), (ofCursor c).ending.down n⟩ := by
  induction c using ofCursor_induction with
  | finished c line hnext hscan =>
    have hdown := Cursor.next_down n c
    rw [hnext] at hdown
    rw [hscan, ofCursor_of_end hdown rfl]
    rfl
  | token c t c' hnext ht hscan ih =>
    have hdown := Cursor.next_down n c
    rw [hnext] at hdown
    have ht' : (t.down n).kind ≠ .endOfText := ht
    rw [hscan, ofCursor_of_token hdown ht', ih]
    rfl
  | unexpected c char line c' hnext hscan =>
    have hdown := Cursor.next_down n c
    rw [hnext] at hdown
    rw [hscan, ofCursor_of_unexpected hdown]
    rfl
  | unterminated c line last hnext hscan =>
    have hdown := Cursor.next_down n c
    rw [hnext] at hdown
    rw [hscan, ofCursor_of_unterminated hdown]
    rfl

/-- **The scan of two texts is one behind the other**, if the first one comes to its end. -/
theorem ofCursor_join (below : List Char) (c : Cursor) {line : Nat}
    (h : (ofCursor c).ending = .finished line) :
    ofCursor (c.join below)
      = ⟨(ofCursor c).tokens ++ (ofCursor ⟨below, line + 1⟩).tokens,
        (ofCursor ⟨below, line + 1⟩).ending⟩ := by
  induction c using ofCursor_induction with
  | finished c last hnext hscan =>
    rw [hscan] at h ⊢
    obtain rfl : last = line := Ending.finished.inj h
    rw [ofCursor_congr (Cursor.next_join_of_end hnext rfl below)]
    rfl
  | token c t c' hnext ht hscan ih =>
    have hjoin := Cursor.next_join hnext ht below
    rw [hscan] at h ⊢
    rw [ofCursor_of_token hjoin ht, ih h, List.cons_append]
  | unexpected c char last c' hnext hscan =>
    rw [hscan] at h
    cases h
  | unterminated c opening last hnext hscan =>
    rw [hscan] at h
    cases h

/-- The second text starts as many lines further down as the first one has. -/
theorem ofText_join {a b : String} {tokens : List Token} {line : Nat}
    (h : ofText a = ⟨tokens, .finished line⟩) :
    ofText (a ++ "\n" ++ b)
      = ⟨tokens ++ (ofText b).tokens.map (Token.down line), (ofText b).ending.down line⟩ := by
  have hbelow : (⟨b.toList, line + 1⟩ : Cursor) = (Cursor.start b).down line := by
    rw [Cursor.down, Nat.add_comm]
    rfl
  have hscan : ofCursor (Cursor.start a) = ⟨tokens, .finished line⟩ := h
  have hends : (ofCursor (Cursor.start a)).ending = .finished line := by rw [hscan]
  have hjoin := ofCursor_join b.toList (Cursor.start a) hends
  rw [hscan, hbelow, ofCursor_down] at hjoin
  show ofCursor (Cursor.start (a ++ "\n" ++ b)) = _
  rw [Cursor.start_join]
  exact hjoin

/-- A text that splits into tokens has as many lines as the line of its end says. -/
theorem line_of_ofText {text : String} {tokens : List Token} {line : Nat}
    (h : ofText text = ⟨tokens, .finished line⟩) : line = 1 + text.toList.count '\n' := by
  have hscan : ofCursor (Cursor.start text) = ⟨tokens, .finished line⟩ := h
  exact lastLine_eq (Cursor.start text) (by rw [hscan]; rfl)

end Scan

/--
**Two texts with a line end between them split as each of them does alone.**

Behind the tokens of the first text come those of the second one, or its error, as many lines
further down as the first text has.
-/
theorem tokenize_join {a b : String} {ts : List Token} (h : tokenize a = .ok ts) :
    let lines := 1 + a.toList.count '\n'
    tokenize (a ++ "\n" ++ b) = match tokenize b with
      | .ok us => .ok (ts.dropLast ++ us.map (Token.down lines))
      | .error error => .error (error.down lines) := by
  intro lines
  obtain ⟨tokens, line, hscan, rfl⟩ := tokenize_eq_ok.mp h
  have hline : line = lines := Scan.line_of_ofText hscan
  have hjoin := Scan.ofText_join (b := b) hscan
  rw [hline] at hjoin
  rw [List.dropLast_concat]
  unfold tokenize
  rw [hjoin]
  unfold Scan.toTokens
  cases hending : (Scan.ofText b).ending with
  | finished last =>
      show Except.ok _ = Except.ok _
      rw [List.map_append, List.append_assoc]
      rfl
  | unexpected char last => rfl
  | unterminated opening last => rfl

/-- Below a comment and two lines, a name comes two lines further down, and so does the error of an
open string. -/
theorem tokenize_join_comment :
    let name (lexeme : String) (line : Nat) : Token := ⟨.identifier, lexeme, none, line⟩
    let above := "a // \"\nb"
    tokenize above = .ok [name "a" 1, name "b" 2, Token.atEnd 2]
      ∧ tokenize (above ++ "\n" ++ "c") = .ok [name "a" 1, name "b" 2, name "c" 3, Token.atEnd 3]
      ∧ tokenize (above ++ "\n" ++ "c\n\"d") = .error (.unterminatedString 4) := by
  intro name above
  have habove : tokenize "a // \"\nb" = .ok [name "a" 1, name "b" 2, Token.atEnd 2] := rfl
  have hname : tokenize "c" = .ok [name "c" 1, Token.atEnd 1] := rfl
  have hopen : tokenize "c\n\"d" = .error (.unterminatedString 2) := rfl
  have hfirst := tokenize_join (b := "c") habove
  have hsecond := tokenize_join (b := "c\n\"d") habove
  rw [hname] at hfirst
  rw [hopen] at hsecond
  exact ⟨habove, hfirst, hsecond⟩

end Lox
