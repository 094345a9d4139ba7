import Lox.Proofs.Layout

/-!
# Reading on and on

What comes of asking for the next token again and again, behind an error and behind the end as well?
A place never moves back, and a token moves it forward. So only finitely many tokens come, and one
of three things follows them for ever: the end, the same unexpected character, or the one report of
an open string and then the end.

`Cursor.reads_next` lists all that one reading can do. The rest of this file goes from one reading
to all of them, along `Scan.ofCursor_induction`: what holds of a place because it holds behind every
token that is read there, holds of every place.
-/

namespace Lox

/-! ## One reading -/

/-- Between two places, the characters `passed` were passed. -/
structure Cursor.Passes (c : Cursor) (passed : List Char) (c' : Cursor) : Prop where
  rest : c.rest = passed ++ c'.rest
  line : c'.line = c.line + passed.count '\n'

/-- What a reading gives, and the place it leads to. -/
inductive Cursor.Reads (c : Cursor) : Except LexError Token × Cursor → Prop where
  /-- The end is read, and nothing is left. -/
  | finished {gap : List Char} {line : Nat} :
      c.rest = gap → line = c.line + gap.count '\n' → Trivia [] gap →
      Reads c (.ok (Token.atEnd line), ⟨[], line⟩)
  /-- A token is read, and its characters are passed. -/
  | token {gap later : List Char} {t : Token} :
      c.rest = gap ++ (t.lexeme.toList ++ later) → t.line = c.line + gap.count '\n' →
      Trivia (t.lexeme.toList ++ later) gap → Bare (t.lexeme.toList ++ later) →
      Head.ofText (t.lexeme.toList ++ later) = .lexeme t.kind t.lexeme.toList t.literal →
      Reads c (.ok t, ⟨later, t.line + t.lexeme.toList.count '\n'⟩)
  /-- A string is not closed, and all that is left is passed. -/
  | unterminated {gap later : List Char} {line : Nat} :
      c.rest = gap ++ '"' :: later → line = c.line + gap.count '\n' →
      Trivia ('"' :: later) gap → Bare ('"' :: later) →
      Reads c (.error (.unterminatedString line), ⟨[], line + ('"' :: later).count '\n'⟩)
  /-- A character starts no token, and the place stays in front of it. -/
  | unexpected {gap later : List Char} {char : Char} {line : Nat} :
      c.rest = gap ++ char :: later → line = c.line + gap.count '\n' →
      Trivia (char :: later) gap → Bare (char :: later) →
      Head.ofText (char :: later) = .unexpected char →
      Reads c (.error (.unexpectedCharacter char line), ⟨char :: later, line⟩)

/-- A lexeme has a character at least, and is not the end. -/
theorem Head.lexeme_proper {text chars : List Char} {kind : TokenKind} {literal : Option Value}
    (h : ofText text = lexeme kind chars literal) : chars ≠ [] ∧ kind ≠ .endOfText := by
  have hdescribes := ofText_describes text
  rw [h] at hdescribes
  obtain ⟨form, hform⟩ := hdescribes.1.isLexeme
  exact ⟨hform.ne_nil, (lexeme_lexed h).1⟩

namespace Cursor

variable {c c' c'' : Cursor} {t : Token}

/-- **Every reading is one of these four.** -/
theorem reads_next (c : Cursor) : c.Reads c.next := by
  obtain ⟨gap, rest, heq, htrivia, hbare, hskip⟩ := c.skipTrivia_spec
  have hdescribes := Head.ofText_describes rest
  rw [next_eq hskip]
  cases hhead : Head.ofText rest with
  | finished =>
      rw [hhead] at hdescribes
      have hend : rest = [] := hdescribes
      subst hend
      rw [List.append_nil] at heq
      exact .finished heq rfl htrivia
  | lexeme kind chars literal =>
      rw [hhead] at hdescribes
      obtain ⟨later, rfl⟩ := hdescribes.1.isPrefix
      let t : Token := ⟨kind, String.ofList chars, literal, c.line + gap.count '\n'⟩
      -- the characters of the token's text are those it was made of
      have hchars : t.lexeme.toList = chars := String.toList_ofList
      have hread : c.Reads (.ok t, ⟨later, t.line + t.lexeme.toList.count '\n'⟩) := by
        refine .token ?_ rfl ?_ ?_ ?_
        · rw [hchars]; exact heq
        · rw [hchars]; exact htrivia
        · rw [hchars]; exact hbare
        · rw [hchars]; exact hhead
      dsimp only
      rw [advance_length]
      rw [hchars] at hread
      exact hread
  | unterminated =>
      rw [hhead] at hdescribes
      obtain ⟨⟨later, rfl, _⟩, _⟩ := hdescribes
      have hlast : (⟨'"' :: later, c.line + gap.count '\n'⟩ : Cursor).advance
          ('"' :: later).length = ⟨[], c.line + gap.count '\n' + ('"' :: later).count '\n'⟩ := by
        rw [advance, List.drop_length, List.take_length]
      dsimp only
      rw [hlast]
      exact .unterminated heq rfl htrivia hbare
  | unexpected char =>
      rw [hhead] at hdescribes
      obtain ⟨⟨later, rfl⟩, _⟩ := hdescribes
      exact .unexpected heq rfl htrivia hbare hhead

theorem reads_of_next {r : Except LexError Token × Cursor} (h : c.next = r) : c.Reads r := by
  rw [← h]
  exact c.reads_next

/-! ## Places move forward -/

theorem passes_refl (c : Cursor) : c.Passes [] c := ⟨rfl, rfl⟩

theorem passes_trans {first second : List Char} (h : c.Passes first c')
    (h' : c'.Passes second c'') : c.Passes (first ++ second) c'' := by
  have hrest : c.rest = first ++ second ++ c''.rest := by
    rw [h.rest, h'.rest, List.append_assoc]
  have hline : c''.line = c.line + (first ++ second).count '\n' := by
    rw [h'.line, h.line, List.count_append, Nat.add_assoc]
  exact ⟨hrest, hline⟩

theorem Passes.length {passed : List Char} (h : c.Passes passed c') :
    passed.length + c'.rest.length = c.rest.length := by
  rw [h.rest, List.length_append]

/-- A place is found again by the number of characters in front of it. -/
theorem advance_of_passes {passed : List Char} (h : c.Passes passed c') :
    c.advance passed.length = c' := by
  have hlength := advance_length passed c'.rest c.line
  rw [← h.rest, ← h.line] at hlength
  exact hlength

/-- A token is passed with the trivia in front of it, and it has a character at least. -/
theorem next_passes_token (h : c.next = (.ok t, c')) (ht : t.kind ≠ .endOfText) :
    ∃ gap, c.Passes (gap ++ t.lexeme.toList) c' ∧ t.lexeme.toList ≠ [] := by
  cases reads_of_next h with
  | finished => exact absurd rfl ht
  | @token gap later _ heq hline _ _ hhead =>
      refine ⟨gap, ⟨by rw [heq, List.append_assoc], ?_⟩, (Head.lexeme_proper hhead).1⟩
      show t.line + _ = _
      rw [hline, List.count_append, Nat.add_assoc]

/-- No reading moves a place back, or away from its text. -/
theorem next_passes (c : Cursor) : ∃ passed, c.Passes passed c.next.2 := by
  obtain ⟨r, hr⟩ : ∃ r, c.next = r := ⟨_, rfl⟩
  rw [hr]
  cases reads_of_next hr with
  | @finished gap line heq hline _ => exact ⟨gap, by rw [heq, List.append_nil], hline⟩
  | token _ _ _ _ hhead =>
      obtain ⟨gap, hpasses, _⟩ := next_passes_token hr (Head.lexeme_proper hhead).2
      exact ⟨_, hpasses⟩
  | @unterminated gap later line heq hline _ _ =>
      refine ⟨gap ++ '"' :: later, by rw [heq, List.append_nil], ?_⟩
      show line + _ = _
      rw [hline, List.count_append, Nat.add_assoc]
  | @unexpected gap later char line heq hline _ _ _ => exact ⟨gap, heq, hline⟩

/-- The line of a place and the line ends behind it make the same number everywhere. -/
theorem lines_of_next {r : Except LexError Token} (h : c.next = (r, c')) :
    c'.line + c'.rest.count '\n' = c.line + c.rest.count '\n' := by
  obtain ⟨passed, hpasses⟩ := c.next_passes
  rw [h] at hpasses
  rw [hpasses.rest, hpasses.line, List.count_append, Nat.add_assoc]

theorem length_of_next (h : c.next = (.ok t, c')) (ht : t.kind ≠ .endOfText) :
    c'.rest.length < c.rest.length := by
  obtain ⟨gap, hpasses, hne⟩ := next_passes_token h ht
  have hpos := List.length_pos_iff.mpr hne
  rw [hpasses.rest, List.length_append, List.length_append]
  omega

/-- Along the tokens from a place on there is an induction, because each of them makes the rest of
the text shorter. -/
theorem reading_induction {motive : Cursor → Prop}
    (step : ∀ c, (∀ t c', c.next = (.ok t, c') → t.kind ≠ .endOfText → motive c') → motive c)
    (c : Cursor) : motive c := by
  induction hn : c.rest.length using Nat.strongRecOn generalizing c with
  | ind n ih =>
    refine step c fun t c' hnext ht => ?_
    have hshorter := length_of_next hnext ht
    exact ih c'.rest.length (by omega) c' rfl

/-! ## Behind the last token -/

/-- The end is read only where nothing is left, and then it is read again. -/
theorem next_of_end (h : c.next = (.ok t, c')) (ht : t.kind = .endOfText) :
    c'.next = (.ok t, c') := by
  cases reads_of_next h with
  | finished => rfl
  | token _ _ _ _ hhead => exact absurd ht (Head.lexeme_proper hhead).2

/-- Behind an open string there is the end. -/
theorem next_of_unterminated {line : Nat} (h : c.next = (.error (.unterminatedString line), c')) :
    c'.next = (.ok (Token.atEnd c'.line), c') := by
  cases reads_of_next h with
  | unterminated => rfl

/-- In front of an unexpected character nothing is skipped any more, so it is met again. -/
theorem next_of_unexpected {char : Char} {line : Nat}
    (h : c.next = (.error (.unexpectedCharacter char line), c')) :
    c'.next = (.error (.unexpectedCharacter char line), c') := by
  cases reads_of_next h with
  | @unexpected gap later _ _ _ _ _ hbare hhead =>
      have hskip := skipTrivia_of_trivia .none hbare line
      have hnext := next_eq hskip
      rw [hhead] at hnext
      exact hnext

end Cursor

/-! ## The scan of a place -/

namespace Scan

variable {c c' : Cursor} {t : Token}

/-- The bound of a scan does not matter, as long as it is larger than the rest of the text. -/
theorem upTo_eq_ofCursor (c : Cursor) :
    ∀ bound, c.rest.length < bound → upTo bound c = ofCursor c := by
  induction c using Cursor.reading_induction with
  | step c ih =>
    intro bound hbound
    obtain ⟨n, rfl⟩ : ∃ n, bound = n + 1 := ⟨bound - 1, by omega⟩
    rw [ofCursor, upTo, upTo]
    split
    · rename_i t c' hnext
      split
      · rfl
      · rename_i ht
        have hshorter := Cursor.length_of_next hnext ht
        rw [ih t c' hnext ht n (by omega), ih t c' hnext ht c.rest.length (by omega)]
    · rfl
    · rfl

theorem ofCursor_of_token (h : c.next = (.ok t, c')) (ht : t.kind ≠ .endOfText) :
    ofCursor c = ⟨t :: (ofCursor c').tokens, (ofCursor c').ending⟩ := by
  have hshorter := Cursor.length_of_next h ht
  rw [← upTo_eq_ofCursor c' c.rest.length hshorter]
  exact upTo_cons h ht _

theorem ofCursor_of_end (h : c.next = (.ok t, c')) (ht : t.kind = .endOfText) :
    ofCursor c = ⟨[], .finished t.line⟩ := by
  rw [ofCursor, upTo, h]
  exact if_pos ht

theorem ofCursor_of_unexpected {char : Char} {line : Nat}
    (h : c.next = (.error (.unexpectedCharacter char line), c')) :
    ofCursor c = ⟨[], .unexpected char line⟩ := by
  rw [ofCursor, upTo, h]

theorem ofCursor_of_unterminated {line : Nat}
    (h : c.next = (.error (.unterminatedString line), c')) :
    ofCursor c = ⟨[], .unterminated line c'.line⟩ := by
  rw [ofCursor, upTo, h]

/-- **Induction along the tokens from a place on**, by what is read at the place. -/
theorem ofCursor_induction {motive : Cursor → Prop}
    (finished : ∀ c line, c.next = (.ok (Token.atEnd line), ⟨[], line⟩) →
      ofCursor c = ⟨[], .finished line⟩ → motive c)
    (token : ∀ c t c', c.next = (.ok t, c') → t.kind ≠ .endOfText →
      ofCursor c = ⟨t :: (ofCursor c').tokens, (ofCursor c').ending⟩ → motive c' → motive c)
    (unexpected : ∀ c char line c', c.next = (.error (.unexpectedCharacter char line), c') →
      ofCursor c = ⟨[], .unexpected char line⟩ → motive c)
    (unterminated : ∀ c line last, c.next = (.error (.unterminatedString line), ⟨[], last⟩) →
      ofCursor c = ⟨[], .unterminated line last⟩ → motive c)
    (c : Cursor) : motive c := by
  induction c using Cursor.reading_induction with
  | step c ih =>
    obtain ⟨r, hnext⟩ : ∃ r, c.next = r := ⟨_, rfl⟩
    cases Cursor.reads_of_next hnext with
    | finished => exact finished c _ hnext (ofCursor_of_end hnext rfl)
    | token _ _ _ _ hhead =>
        have ht := (Head.lexeme_proper hhead).2
        exact token c _ _ hnext ht (ofCursor_of_token hnext ht) (ih _ _ hnext ht)
    | unterminated => exact unterminated c _ _ hnext (ofCursor_of_unterminated hnext)
    | unexpected => exact unexpected c _ _ _ hnext (ofCursor_of_unexpected hnext)

end Scan

/-! ## All readings -/

namespace Cursor

/-- The place after `n` readings. -/
def after (c : Cursor) : Nat → Cursor
  | 0 => c
  | n + 1 => (c.after n).next.2

/-- What reading number `n` gives; the first one has the number 0. -/
def reading (c : Cursor) (n : Nat) : Except LexError Token := (c.after n).next.1

/-- What readings one after the other collect up to the end or to the first error, if one of `calls`
readings comes to it. -/
def collect? : (calls : Nat) → Cursor → Option (Except LexError (List Token))
  | 0, _ => none
  | calls + 1, c =>
    match c.next with
    | (.ok token, after) =>
      if token.kind = .endOfText then some (.ok [token])
      else (collect? calls after).map (Except.map (token :: ·))
    | (.error error, _) => some (.error error)

/-- Readings behind the first one are readings from where it leads. -/
theorem after_succ (c : Cursor) (n : Nat) : c.after (n + 1) = c.next.2.after n := by
  induction n with
  | zero => rfl
  | succ n ih => rw [after, ih, after]

theorem reading_succ (c : Cursor) (n : Nat) : c.reading (n + 1) = c.next.2.reading n := by
  rw [reading, after_succ, reading]

/-- A reading that leads back to its own place is made for ever. -/
theorem reading_of_fixed {c : Cursor} {r : Except LexError Token} (h : c.next = (r, c)) (n : Nat) :
    c.reading n = r := by
  induction n with
  | zero => rw [reading, after, h]
  | succ n ih => rw [reading_succ, h]; exact ih

/-- And so is one that leads to such a place and gives the same. -/
theorem reading_of_repeated {c c' : Cursor} {r : Except LexError Token} (h : c.next = (r, c'))
    (hagain : c'.next = (r, c')) (n : Nat) : c.reading n = r := by
  cases n with
  | zero => rw [reading, after, h]
  | succ n =>
    rw [reading_succ, h]
    exact reading_of_fixed hagain n

/-- Any number of readings passes a part of the text. -/
theorem after_passes (c : Cursor) (n : Nat) : ∃ passed, c.Passes passed (c.after n) := by
  induction n with
  | zero => exact ⟨[], passes_refl c⟩
  | succ n ih =>
    obtain ⟨first, hfirst⟩ := ih
    obtain ⟨second, hsecond⟩ := (c.after n).next_passes
    exact ⟨first ++ second, passes_trans hfirst hsecond⟩

/-- A reading of a token passes its lexeme, behind all that the readings before it have passed. -/
theorem after_passes_token {c : Cursor} {t : Token} {n : Nat} (hread : c.reading n = .ok t)
    (ht : t.kind ≠ .endOfText) :
    ∃ passed gap, c.Passes passed (c.after n)
      ∧ c.Passes (passed ++ gap ++ t.lexeme.toList) (c.after (n + 1)) ∧ t.lexeme.toList ≠ [] := by
  obtain ⟨passed, hpasses⟩ := c.after_passes n
  have hnext : (c.after n).next = (.ok t, c.after (n + 1)) := Prod.ext hread rfl
  obtain ⟨gap, htoken, hne⟩ := next_passes_token hnext ht
  have hall := passes_trans hpasses htoken
  rw [← List.append_assoc] at hall
  exact ⟨passed, gap, hpasses, hall, hne⟩

end Cursor

/-! ## What follows the last token -/

/-- These readings are one of three endless tails. -/
def Ending.Repeats (readings : Nat → Except LexError Token) : Ending → Prop
  | finished line => ∀ i, readings i = .ok (Token.atEnd line)
  | unexpected c line => ∀ i, readings i = .error (.unexpectedCharacter c line)
  | unterminated line last => readings 0 = .error (.unterminatedString line)
      ∧ ∀ i, readings (i + 1) = .ok (Token.atEnd last)

/-- The line on which the end of the text is read. -/
def Ending.lastLine? : Ending → Option Nat
  | finished line => some line
  | unexpected _ _ => none
  | unterminated _ last => some last

/-- These readings are the tokens of the scan and then its tail. -/
structure Scan.Delivered (scan : Scan) (readings : Nat → Except LexError Token) : Prop where
  token : ∀ i (h : i < scan.tokens.length), readings i = .ok scan.tokens[i]
  not_end : ∀ t ∈ scan.tokens, t.kind ≠ .endOfText
  tail : scan.ending.Repeats fun i => readings (scan.tokens.length + i)

namespace Scan

variable {readings : Nat → Except LexError Token}

theorem delivered_nil {ending : Ending} :
    Delivered ⟨[], ending⟩ readings ↔ ending.Repeats readings := by
  have hsame : (fun i => readings (([] : List Token).length + i)) = readings := by
    funext i
    rw [List.length_nil, Nat.zero_add]
  constructor
  · intro h
    have htail := h.tail
    dsimp only at htail
    rwa [hsame] at htail
  · intro h
    refine ⟨fun i hi => absurd hi (Nat.not_lt_zero i), by simp, ?_⟩
    dsimp only
    rwa [hsame]

theorem delivered_cons {t : Token} {tokens : List Token} {ending : Ending} :
    Delivered ⟨t :: tokens, ending⟩ readings ↔
      readings 0 = .ok t ∧ t.kind ≠ .endOfText
        ∧ Delivered ⟨tokens, ending⟩ fun i => readings (i + 1) := by
  have hsame : (fun i => readings ((t :: tokens).length + i))
      = fun i => readings (tokens.length + i + 1) := by
    funext i
    rw [List.length_cons, Nat.add_right_comm]
  constructor
  · rintro ⟨htoken, hkind, htail⟩
    refine ⟨htoken 0 (Nat.succ_pos _), hkind t (List.mem_cons_self ..), ?_, ?_, ?_⟩
    · intro i hi
      exact htoken (i + 1) (Nat.succ_lt_succ hi)
    · exact fun u hu => hkind u (List.mem_cons_of_mem _ hu)
    · dsimp only at htail ⊢
      rwa [hsame] at htail
  · rintro ⟨hfirst, hkind, htoken, hkinds, htail⟩
    refine ⟨?_, ?_, ?_⟩
    · intro i hi
      cases i with
      | zero => exact hfirst
      | succ i => exact htoken i (Nat.lt_of_succ_lt_succ hi)
    · intro u hu
      rcases List.mem_cons.mp hu with rfl | hu
      · exact hkind
      · exact hkinds u hu
    · dsimp only at htail ⊢
      rwa [hsame]

/-- **What a place delivers is its scan**, and nothing is left out by the bound of the scan. -/
theorem ofCursor_delivered (c : Cursor) : (ofCursor c).Delivered c.reading := by
  induction c using ofCursor_induction with
  | finished c line hnext hscan =>
    have hagain := Cursor.next_of_end hnext rfl
    rw [hscan]
    exact delivered_nil.mpr (Cursor.reading_of_repeated hnext hagain)
  | token c t c' hnext ht hscan ih =>
    have hlater : (fun i => c.reading (i + 1)) = c'.reading := by
      funext i
      rw [Cursor.reading_succ, hnext]
    rw [hscan]
    refine delivered_cons.mpr ⟨?_, ht, ?_⟩
    · rw [Cursor.reading, Cursor.after, hnext]
    · rw [hlater]
      exact ih
  | unexpected c char line c' hnext hscan =>
    have hagain := Cursor.next_of_unexpected hnext
    rw [hscan]
    exact delivered_nil.mpr (Cursor.reading_of_repeated hnext hagain)
  | unterminated c line last hnext hscan =>
    have hagain := Cursor.next_of_unterminated hnext
    rw [hscan]
    refine delivered_nil.mpr ⟨?_, fun i => ?_⟩
    · rw [Cursor.reading, Cursor.after, hnext]
    · rw [Cursor.reading_succ, hnext]
      exact Cursor.reading_of_fixed hagain i

/-! ## Only one scan is delivered -/

end Scan

namespace Ending

variable {readings : Nat → Except LexError Token} {ending other : Ending}

/-- A tail starts with what its ending gives when it is asked twice. -/
theorem first_of_repeats (h : ending.Repeats readings) :
    readings 0 = ending.next.1 ∧ readings 1 = ending.next.2.next.1 := by
  cases ending with
  | finished line => exact ⟨h 0, h 1⟩
  | unexpected c line => exact ⟨h 0, h 1⟩
  | unterminated line last => exact ⟨h.1, h.2 0⟩

/-- A tail does not start with a token. -/
theorem not_token_of_repeats {t : Token} (h : ending.Repeats readings)
    (ht : readings 0 = .ok t) : t.kind = .endOfText := by
  rw [(first_of_repeats h).1] at ht
  cases ending with
  | finished line => cases ht; rfl
  | unexpected c line => cases ht
  | unterminated line last => cases ht

/-- The three tails exclude each other, and so do two of a kind on different lines. -/
theorem repeats_unique (h : ending.Repeats readings) (h' : other.Repeats readings) :
    other = ending := by
  have hfirst : other.next.1 = ending.next.1 := by
    rw [← (first_of_repeats h).1, ← (first_of_repeats h').1]
  have hsecond : other.next.2.next.1 = ending.next.2.next.1 := by
    rw [← (first_of_repeats h).2, ← (first_of_repeats h').2]
  cases ending <;> cases other <;> simp_all [next, Token.atEnd]

end Ending

namespace Scan

variable {readings : Nat → Except LexError Token}

theorem delivered_unique {scan other : Scan} (h : scan.Delivered readings)
    (h' : other.Delivered readings) : other = scan := by
  obtain ⟨tokens, ending⟩ := scan
  obtain ⟨tokens', ending'⟩ := other
  induction tokens generalizing readings tokens' with
  | nil =>
    have htail := delivered_nil.mp h
    cases tokens' with
    | nil =>
        rw [Ending.repeats_unique htail (delivered_nil.mp h')]
    | cons t tokens' =>
        obtain ⟨hfirst, hkind, _⟩ := delivered_cons.mp h'
        exact absurd (Ending.not_token_of_repeats htail hfirst) hkind
  | cons t tokens ih =>
    obtain ⟨hfirst, hkind, hlater⟩ := delivered_cons.mp h
    cases tokens' with
    | nil =>
        exact absurd (Ending.not_token_of_repeats (delivered_nil.mp h') hfirst) hkind
    | cons t' tokens' =>
        obtain ⟨hfirst', _, hlater'⟩ := delivered_cons.mp h'
        have hsame : t' = t := by
          rw [hfirst] at hfirst'
          exact (Except.ok.inj hfirst').symm
        have hrest := ih hlater tokens' hlater'
        cases hrest
        rw [hsame]

/-! ## The whole of a text -/

/-- Every token of a place takes a character of it. -/
theorem length_tokens_le (c : Cursor) : (ofCursor c).tokens.length ≤ c.rest.length := by
  induction c using ofCursor_induction with
  | finished c line hnext hscan =>
    rw [hscan]
    exact Nat.zero_le _
  | token c t c' hnext ht hscan ih =>
    have hshorter := Cursor.length_of_next hnext ht
    rw [hscan, List.length_cons]
    omega
  | unexpected c char line c' hnext hscan =>
    rw [hscan]
    exact Nat.zero_le _
  | unterminated c line last hnext hscan =>
    rw [hscan]
    exact Nat.zero_le _

/-- The line of the end counts all line ends that are left. -/
theorem lastLine_eq (c : Cursor) {line : Nat} (h : (ofCursor c).ending.lastLine? = some line) :
    line = c.line + c.rest.count '\n' := by
  induction c using ofCursor_induction with
  | finished c last hnext hscan =>
    rw [hscan] at h
    rw [← Cursor.lines_of_next hnext]
    exact (Option.some.inj h).symm
  | token c t c' hnext ht hscan ih =>
    rw [hscan] at h
    rw [← Cursor.lines_of_next hnext]
    exact ih h
  | unexpected c char last c' hnext hscan =>
    rw [hscan] at h
    cases h
  | unterminated c opening last hnext hscan =>
    rw [hscan] at h
    rw [← Cursor.lines_of_next hnext]
    exact (Option.some.inj h).symm

theorem toTokens_cons (t : Token) (tokens : List Token) (ending : Ending) :
    toTokens ⟨t :: tokens, ending⟩ = (toTokens ⟨tokens, ending⟩).map (t :: ·) := by
  cases ending <;> rfl

end Scan

/-- One reading more than there are characters left comes to the end or to an error. -/
theorem Cursor.collect?_eq (c : Cursor) :
    ∀ n, c.rest.length ≤ n → c.collect? (n + 1) = some (Scan.ofCursor c).toTokens := by
  induction c using Scan.ofCursor_induction with
  | finished c line hnext hscan =>
    intro n _
    rw [collect?, hnext, hscan]
    rfl
  | token c t c' hnext ht hscan ih =>
    intro n hn
    have hshorter := length_of_next hnext ht
    obtain ⟨m, rfl⟩ : ∃ m, n = m + 1 := ⟨n - 1, by omega⟩
    have hlater := ih m (by omega)
    rw [collect?, hnext]
    dsimp only
    rw [if_neg ht, hscan, Scan.toTokens_cons, hlater]
    rfl
  | unexpected c char line c' hnext hscan =>
    intro n _
    rw [collect?, hnext, hscan]
    rfl
  | unterminated c line last hnext hscan =>
    intro n _
    rw [collect?, hnext, hscan]
    rfl

/--
**Readings of a text are finitely many tokens and then one of three endless tails.**

The position never decreases and never leaves the text, and every token moves it forward over its
own characters. There is exactly one scan whose tokens and whose tail are what is read, it has no
more tokens than the text has characters, and where the tail comes to the end, its line counts all
line ends of the text. One reading more than there are characters is enough to split the text.
-/
theorem readings_are_tokens_then_tail (text : String) :
    let start := Cursor.start text
    let length := text.toList.length
    let position := fun n => length - (start.after n).rest.length
    (∀ n, position n + (start.after n).rest.length = length
        ∧ start.after n = start.advance (position n)
        ∧ position n ≤ position (n + 1) ∧ position n ≤ length)
      ∧ (∀ n t, start.reading n = .ok t → t.kind ≠ .endOfText →
          position n < position (n + 1)
            ∧ ∃ first, position n ≤ first ∧ first ≤ position (n + 1)
              ∧ (text.toList.take (position (n + 1))).drop first = t.lexeme.toList)
      ∧ (∃ scan : Scan, scan.Delivered start.reading
          ∧ (∀ other : Scan, other.Delivered start.reading → other = scan)
          ∧ scan.tokens.length ≤ length
          ∧ ∀ line, scan.ending.lastLine? = some line → line = 1 + text.toList.count '\n')
      ∧ start.collect? (length + 1) = some (tokenize text) := by
  intro start length position
  -- what was passed up to a place has as many characters as its position says
  have hposition : ∀ {n passed}, start.Passes passed (start.after n) →
      passed.length = position n ∧ position n + (start.after n).rest.length = length := by
    intro n passed hpasses
    have hlength : passed.length + (start.after n).rest.length = length := hpasses.length
    have hpassed : passed.length = length - (start.after n).rest.length := by omega
    exact ⟨hpassed, by rwa [hpassed] at hlength⟩
  refine ⟨?_, ?_, ?_, ?_⟩
  · intro n
    obtain ⟨passed, hpasses⟩ := start.after_passes n
    obtain ⟨more, hmore⟩ := (start.after n).next_passes
    have hall : start.Passes (passed ++ more) (start.after (n + 1)) :=
      Cursor.passes_trans hpasses hmore
    obtain ⟨hlength, hsum⟩ := hposition hpasses
    obtain ⟨hlength', -⟩ := hposition hall
    have hadvance := Cursor.advance_of_passes hpasses
    rw [hlength] at hadvance
    rw [List.length_append] at hlength'
    exact ⟨hsum, hadvance.symm, by omega, by omega⟩
  · intro n t hread ht
    obtain ⟨passed, gap, hpasses, hall, hne⟩ := Cursor.after_passes_token hread ht
    obtain ⟨hlength, -⟩ := hposition hpasses
    obtain ⟨hlength', -⟩ := hposition hall
    have hpos := List.length_pos_iff.mpr hne
    have hchars : text.toList.take (position (n + 1)) = passed ++ gap ++ t.lexeme.toList := by
      have htext : text.toList = _ := hall.rest
      rw [htext, ← hlength', List.take_left]
    rw [List.length_append, List.length_append] at hlength'
    refine ⟨by omega, (passed ++ gap).length, ?_, ?_, ?_⟩
    · rw [List.length_append]
      omega
    · rw [List.length_append]
      omega
    · rw [hchars, List.drop_left]
  · refine ⟨Scan.ofText text, Scan.ofCursor_delivered start, fun other h => ?_, ?_, ?_⟩
    · exact Scan.delivered_unique (Scan.ofCursor_delivered start) h
    · exact Scan.length_tokens_le start
    · intro line hline
      exact Scan.lastLine_eq start hline
  · exact start.collect?_eq length (Nat.le_refl _)

/-- An open string is reported once, and then there is the end, on the last line. -/
example :
    let start := Cursor.start "a \"b\n"
    start.reading 1 = .error (.unterminatedString 1)
      ∧ start.reading 2 = .ok (Token.atEnd 2) ∧ start.reading 9 = .ok (Token.atEnd 2) :=
  ⟨rfl, rfl, rfl⟩

end Lox
