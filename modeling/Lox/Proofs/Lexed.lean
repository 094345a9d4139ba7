import Lox.Proofs.Grammar
import Lox.Token.Scan

/-!
# What the tokens of a text are like

A text never holds the token of its end as one of its words, and a word that stands for a value
carries that value. A parser relies on both: on the first to know that it has come to the end, and
on the second when it makes a node of a literal.
-/

namespace Lox

/-- A token as it comes out of a text. -/
structure Token.Lexed (t : Token) : Prop where
  /-- It is a word of the text and not its end. -/
  not_end : t.kind ≠ .endOfText
  /-- If it stands for a value, it carries one. -/
  literal : t.kind ∈ TokenKind.literals → ∃ v, t.literal = some v

/-! ## One lexeme -/

theorem TokenKind.wordValue?_of_keyword {word : String} {kind : TokenKind}
    (h : keyword? word = some kind) (hk : kind ∈ literals) : ∃ v, kind.wordValue? = some v := by
  unfold keyword? at h
  split at h <;> cases h <;> first | exact ⟨_, rfl⟩ | exact absurd hk (by decide)

theorem TokenKind.keyword?_not_end {word : String} {kind : TokenKind}
    (h : keyword? word = some kind) : kind ≠ .endOfText := by
  unfold keyword? at h
  split at h <;> cases h <;> decide

theorem operator?_lexed {text chars : List Char} {kind : TokenKind}
    (h : operator? text = some (chars, kind)) :
    kind ≠ .endOfText ∧ kind ∉ TokenKind.literals := by
  have hall : ∀ o ∈ operators, o.2 ≠ .endOfText ∧ o.2 ∉ TokenKind.literals := by decide
  exact hall _ (List.mem_of_find?_eq_some h)

/-- The kind of a lexeme is never that of the end, and comes with a value if it needs one. -/
theorem Head.lexeme_lexed {text chars : List Char} {kind : TokenKind} {literal : Option Value}
    (h : ofText text = lexeme kind chars literal) :
    kind ≠ .endOfText ∧ (kind ∈ TokenKind.literals → ∃ v, literal = some v) := by
  cases text with
  | nil => cases h
  | cons c rest =>
    rw [ofText] at h
    split at h
    · -- a string, if it is closed
      unfold string at h
      split at h
      · cases h
      · cases h; exact ⟨by decide, fun _ => ⟨_, rfl⟩⟩
    · split at h
      · cases h; exact ⟨by decide, fun _ => ⟨_, rfl⟩⟩
      · split at h
        · -- a word: reserved, or an identifier, which stands for no value
          cases hw : TokenKind.keyword? (String.ofList ((c :: rest).takeWhile isWordPart)) with
          | none =>
              simp only [word, hw] at h
              cases h
              exact ⟨by decide, fun hk => absurd hk (by decide)⟩
          | some k =>
              simp only [word, hw] at h
              cases h
              exact ⟨TokenKind.keyword?_not_end hw, TokenKind.wordValue?_of_keyword hw⟩
        · split at h
          · rename_i ho
            cases h
            obtain ⟨h₁, h₂⟩ := operator?_lexed ho
            exact ⟨h₁, fun hk => absurd hk h₂⟩
          · cases h

/-! ## All tokens of a text -/

theorem Cursor.next_lexed {c after : Cursor} {t : Token} (h : c.next = (.ok t, after))
    (ht : t.kind ≠ .endOfText) : t.Lexed := by
  unfold Cursor.next at h
  dsimp only at h
  split at h
  · cases h; exact absurd rfl ht
  · rename_i hh
    cases h
    exact ⟨(Head.lexeme_lexed hh).1, (Head.lexeme_lexed hh).2⟩
  · cases h
  · cases h

theorem Scan.upTo_lexed (bound : Nat) (c : Cursor) : ∀ t ∈ (upTo bound c).tokens, t.Lexed := by
  induction bound generalizing c with
  | zero => intro t ht; simp [upTo] at ht
  | succ bound ih =>
    intro t ht
    rw [upTo] at ht
    split at ht
    · rename_i hn
      split at ht
      · simp at ht
      · rename_i hk
        -- the scan goes on behind a token that is not the end
        rcases List.mem_cons.mp ht with rfl | ht
        · exact Cursor.next_lexed hn hk
        · exact ih _ t ht
    · simp at ht
    · simp at ht

/-- **Every token of a text is a word of it, with its value.** -/
theorem Scan.ofText_lexed (text : String) : ∀ t ∈ (ofText text).tokens, t.Lexed :=
  upTo_lexed _ _

/-- A text splits into tokens if its scan comes to the end, which is then the last token. -/
theorem tokenize_eq_ok {text : String} {ts : List Token} :
    tokenize text = .ok ts ↔
      ∃ tokens line, Scan.ofText text = ⟨tokens, .finished line⟩
        ∧ ts = tokens ++ [Token.atEnd line] := by
  unfold tokenize Scan.toTokens
  obtain ⟨tokens, ending⟩ := Scan.ofText text
  cases ending with
  | finished line =>
      constructor
      · intro h; cases h; exact ⟨tokens, line, rfl, rfl⟩
      · rintro ⟨_, _, h, rfl⟩; cases h; rfl
  | unexpected c line =>
      constructor
      · intro h; cases h
      · rintro ⟨_, _, h, _⟩; cases h
  | unterminated line last =>
      constructor
      · intro h; cases h
      · rintro ⟨_, _, h, _⟩; cases h

end Lox
