import Lox.Proofs.LongestMatch
import Lox.Proofs.Lexed

/-!
# How a text is laid out in tokens

Can a text be put together again from its tokens? It can from the tokens and the trivia in front of
each of them. `Piece` is such a pair, and a text is the characters of its pieces one behind the
other, then the last trivia, and then nothing or the place of an error.

The lines are right as well: a token's line is that of the text in front of it, however many line
ends stand in the strings and the comments there.
-/

namespace Lox

/-! ## Pieces of a text -/

/-- A token, with the trivia in front of it. -/
structure Piece where
  gap : List Char
  token : Token

namespace Piece

def chars (p : Piece) : List Char := p.gap ++ p.token.lexeme.toList

/-- The characters of pieces that follow each other. -/
def text (pieces : List Piece) : List Char := pieces.flatMap chars

theorem text_cons (p : Piece) (pieces : List Piece) : text (p :: pieces) = p.chars ++ text pieces :=
  List.flatMap_cons

end Piece

/-- Pieces in front of `rest`, the first of which starts on line `line`. What a piece skips is
trivia, its token has the line that is reached there, and the lexeme is the longest match with all
that is behind it. -/
def LaidOut (line : Nat) (pieces : List Piece) (rest : List Char) : Prop :=
  ∀ front p back, pieces = front ++ p :: back →
    let here := p.token.lexeme.toList ++ (Piece.text back ++ rest)
    Trivia here p.gap
      ∧ p.token.line = line + (Piece.text front ++ p.gap).count '\n'
      ∧ Longest p.token.lexeme.toList here

theorem laidOut_nil (line : Nat) (rest : List Char) : LaidOut line [] rest := by
  intro front p back h
  exact absurd h.symm (List.append_ne_nil_of_right_ne_nil front (List.cons_ne_nil p back))

/-- One piece more in front. The others then start on the line that its token ends on. -/
theorem laidOut_cons {line : Nat} {p : Piece} {pieces : List Piece} {rest : List Char}
    (htrivia : Trivia (p.token.lexeme.toList ++ (Piece.text pieces ++ rest)) p.gap)
    (hline : p.token.line = line + p.gap.count '\n')
    (hlongest : Longest p.token.lexeme.toList
      (p.token.lexeme.toList ++ (Piece.text pieces ++ rest)))
    (h : LaidOut (p.token.line + p.token.lexeme.toList.count '\n') pieces rest) :
    LaidOut line (p :: pieces) rest := by
  intro front q back heq
  cases front with
  | nil =>
      cases heq
      exact ⟨htrivia, hline, hlongest⟩
  | cons p' front =>
      obtain ⟨rfl, hlater⟩ := List.cons_eq_cons.mp heq
      obtain ⟨hqtrivia, hqline, hqlongest⟩ := h front q back hlater
      refine ⟨hqtrivia, ?_, hqlongest⟩
      rw [hqline, hline, Piece.text_cons, Piece.chars]
      simp only [List.count_append]
      omega

/-! ## All pieces of a text -/

/-- What the tokens of a text end with, if `rest` is left on line `line`. -/
def Ending.StandsAt (rest : List Char) (line : Nat) : Ending → Prop
  | finished l => rest = [] ∧ l = line
  | unexpected c l => (∃ later, rest = c :: later) ∧ l = line
  | unterminated l last => (∃ later, rest = '"' :: later ∧ '"' ∉ later) ∧ l = line
      ∧ last = line + rest.count '\n'

/-- A text that starts on line `line` is pieces with the tokens of the scan, then trivia, and then
what the scan ends with, where no further token starts. -/
def Scan.LaysOut (scan : Scan) (text : List Char) (line : Nat) : Prop :=
  ∃ pieces gap rest, text = Piece.text pieces ++ (gap ++ rest)
    ∧ LaidOut line pieces (gap ++ rest) ∧ Trivia rest gap ∧ NoLexeme rest
    ∧ pieces.map Piece.token = scan.tokens
    ∧ scan.ending.StandsAt rest (line + (Piece.text pieces ++ gap).count '\n')

namespace Scan

variable {line : Nat}

/-- No token is left in front of the ending. -/
theorem laysOut_nil {gap rest : List Char} {ending : Ending} (htrivia : Trivia rest gap)
    (hnone : NoLexeme rest) (hends : ending.StandsAt rest (line + gap.count '\n')) :
    LaysOut ⟨[], ending⟩ (gap ++ rest) line :=
  ⟨[], gap, rest, rfl, laidOut_nil line _, htrivia, hnone, rfl, hends⟩

/-- One token more in front. -/
theorem laysOut_cons {scan : Scan} {p : Piece} {later : List Char}
    (htrivia : Trivia (p.token.lexeme.toList ++ later) p.gap)
    (hline : p.token.line = line + p.gap.count '\n')
    (hlongest : Longest p.token.lexeme.toList (p.token.lexeme.toList ++ later))
    (h : scan.LaysOut later (p.token.line + p.token.lexeme.toList.count '\n')) :
    LaysOut ⟨p.token :: scan.tokens, scan.ending⟩ (p.chars ++ later) line := by
  obtain ⟨pieces, gap, rest, rfl, hlaid, hgap, hnone, htokens, hends⟩ := h
  have hpieces := laidOut_cons htrivia hline hlongest hlaid
  refine ⟨p :: pieces, gap, rest, ?_, hpieces, hgap, hnone, ?_, ?_⟩
  · rw [Piece.text_cons, List.append_assoc]
  · rw [List.map_cons, htokens]
  · have hsame : line + (Piece.text (p :: pieces) ++ gap).count '\n'
        = p.token.line + p.token.lexeme.toList.count '\n'
          + (Piece.text pieces ++ gap).count '\n' := by
      rw [hline, Piece.text_cons, Piece.chars]
      simp only [List.count_append]
      omega
    rw [hsame]
    exact hends

/-- A scan goes on behind a token that is not the end. -/
theorem upTo_cons {c after : Cursor} {t : Token} (h : c.next = (.ok t, after))
    (ht : t.kind ≠ .endOfText) (bound : Nat) :
    upTo (bound + 1) c = ⟨t :: (upTo bound after).tokens, (upTo bound after).ending⟩ := by
  rw [upTo, h]
  exact if_neg ht

/-- **From any place on, a scan lays out the text.** Every token takes a character at least, so that
the bound of the scan is never reached. -/
theorem upTo_laysOut (bound : Nat) (c : Cursor) (h : c.rest.length < bound) :
    (upTo bound c).LaysOut c.rest c.line := by
  induction bound generalizing c with
  | zero => exact absurd h (Nat.not_lt_zero _)
  | succ bound ih =>
    obtain ⟨gap, rest, heq, htrivia, _, hskip⟩ := c.skipTrivia_spec
    have hdescribes := Head.ofText_describes rest
    have hnext := Cursor.next_eq hskip
    rw [heq] at h ⊢
    cases hhead : Head.ofText rest with
    | finished =>
        rw [hhead] at hdescribes hnext
        rw [upTo, hnext]
        have hnone : NoLexeme rest := by
          rw [show rest = [] from hdescribes]
          exact noLexeme_nil
        exact laysOut_nil htrivia hnone ⟨hdescribes, rfl⟩
    | lexeme kind chars literal =>
        rw [hhead] at hdescribes hnext
        have hlongest := hdescribes.1
        obtain ⟨later, rfl⟩ := hlongest.isPrefix
        obtain ⟨form, hform⟩ := hlongest.isLexeme
        have hlength : later.length < bound := by
          have hpos := List.length_pos_iff.mpr hform.ne_nil
          rw [List.length_append, List.length_append] at h
          omega
        dsimp only at hnext
        rw [Cursor.advance_length] at hnext
        rw [upTo_cons hnext (Head.lexeme_lexed hhead).1 bound, ← List.append_assoc]
        have hlater := ih ⟨later, c.line + gap.count '\n' + chars.count '\n'⟩ hlength
        -- the characters of the token's text are those it was made of
        have hchars : (String.ofList chars).toList = chars := String.toList_ofList
        let piece : Piece := ⟨gap, kind, String.ofList chars, literal, c.line + gap.count '\n'⟩
        have hpiece : piece.chars = gap ++ chars := congrArg (gap ++ ·) hchars
        rw [← hpiece]
        refine laysOut_cons ?_ rfl ?_ ?_
        · rw [hchars]
          exact htrivia
        · rw [hchars]
          exact hlongest
        · rw [hchars]
          exact hlater
    | unterminated =>
        rw [hhead] at hdescribes hnext
        have hlast : (⟨rest, c.line + gap.count '\n'⟩ : Cursor).advance rest.length
            = ⟨[], c.line + gap.count '\n' + rest.count '\n'⟩ := by
          rw [Cursor.advance, List.drop_length, List.take_length]
        rw [upTo, hnext, hlast]
        exact laysOut_nil htrivia hdescribes.2 ⟨hdescribes.1, rfl, rfl⟩
    | unexpected char =>
        rw [hhead] at hdescribes hnext
        rw [upTo, hnext]
        exact laysOut_nil htrivia hdescribes.2 ⟨hdescribes.1, rfl⟩

/-- So does the scan of a whole text. -/
theorem ofText_laysOut (text : String) : (ofText text).LaysOut text.toList 1 :=
  upTo_laysOut (text.toList.length + 1) (Cursor.start text) (Nat.lt_succ_self _)

end Scan

/--
**Nothing of a text is lost between its tokens, and every line is right.**

A text is its pieces one behind the other, each with the longest match at its place, then trivia,
and then what is left, where no token starts. The tokens of the pieces are all the tokens that are
read, whether or not the text splits.
If it splits into tokens, then nothing is left, and the tokens are those of the pieces with the one
for the end, whose line counts all line ends of the text. Otherwise what is left starts with the
character that is reported, or with the opening quote of the string that nothing closes, on the line
of the error.
-/
theorem tokenize_lays_out (text : String) :
    ∃ pieces gap rest, text.toList = Piece.text pieces ++ (gap ++ rest)
      ∧ LaidOut 1 pieces (gap ++ rest) ∧ Trivia rest gap ∧ NoLexeme rest
      ∧ pieces.map Piece.token = (Scan.ofText text).tokens
      ∧ match tokenize text with
        | .ok ts => rest = []
            ∧ ts = pieces.map Piece.token ++ [Token.atEnd (1 + text.toList.count '\n')]
        | .error (.unexpectedCharacter c line) => (∃ later, rest = c :: later)
            ∧ line = 1 + (Piece.text pieces ++ gap).count '\n'
        | .error (.unterminatedString line) => (∃ later, rest = '"' :: later ∧ '"' ∉ later)
            ∧ line = 1 + (Piece.text pieces ++ gap).count '\n' := by
  obtain ⟨pieces, gap, rest, heq, hlaid, htrivia, hnone, htokens, hends⟩ :=
    Scan.ofText_laysOut text
  refine ⟨pieces, gap, rest, heq, hlaid, htrivia, hnone, htokens, ?_⟩
  unfold tokenize Scan.toTokens
  rw [← htokens]
  cases hending : (Scan.ofText text).ending with
  | finished line =>
      rw [hending] at hends
      obtain ⟨rfl, rfl⟩ := hends
      rw [heq, List.append_nil]
      exact ⟨rfl, rfl⟩
  | unexpected c line =>
      rw [hending] at hends
      exact hends
  | unterminated line last =>
      rw [hending] at hends
      exact ⟨hends.1, hends.2.1⟩

/-- A string over two lines has the line of its opening quote, and what follows it has the next. -/
example : (Scan.ofText "\"a\nb\" c").tokens.map Token.line = [1, 2] := by decide +kernel

end Lox
