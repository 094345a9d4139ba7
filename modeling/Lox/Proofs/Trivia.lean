import Lox.Token.Cursor

/-!
# What is skipped between two tokens

Blank characters and comments are skipped in one go, by counting characters. `Trivia after gap` says
without any counting what may be skipped in front of the text `after`, and `Bare` says of a text
that it starts with nothing of the kind. A place is always split in this way: trivia first, and then
a bare text, which starts on the line that the trivia end on.
-/

namespace Lox

open Text

/-- Blank characters and comments that stand in front of `after`. A comment runs from `//` up to a
line end, or up to the end of the text if it is the last line. -/
inductive Trivia (after : List Char) : List Char → Prop where
  | none : Trivia after []
  | blank {c : Char} {gap : List Char} :
      isBlank c = true → Trivia after gap → Trivia after (c :: gap)
  | comment {body gap : List Char} :
      '\n' ∉ body → Trivia after ('\n' :: gap) →
      Trivia after ('/' :: '/' :: (body ++ '\n' :: gap))
  | lastComment {body : List Char} :
      '\n' ∉ body → after = [] → Trivia after ('/' :: '/' :: body)

/-- The text starts neither with a blank character nor with a comment. -/
def Bare (text : List Char) : Prop :=
  (∀ c, text.head? = some c → isBlank c = false) ∧ ¬['/', '/'] <+: text

theorem bare_nil : Bare [] := ⟨by nofun, by decide⟩

/-- A text that is not bare starts in one of the two ways. -/
theorem exists_of_not_bare {text : List Char} (h : ¬Bare text) :
    (∃ c later, text = c :: later ∧ isBlank c = true) ∨ ∃ later, text = '/' :: '/' :: later := by
  by_cases hslashes : ['/', '/'] <+: text
  · obtain ⟨later, rfl⟩ := hslashes
    exact Or.inr ⟨later, rfl⟩
  · cases text with
    | nil => exact absurd bare_nil h
    | cons c later =>
      refine Or.inl ⟨c, later, rfl, ?_⟩
      cases hblank : isBlank c with
      | true => rfl
      | false =>
        refine absurd ⟨fun d hd => ?_, hslashes⟩ h
        cases hd
        exact hblank

/-! ## The count of the characters to skip -/

theorem triviaLength_blank {c : Char} (h : isBlank c = true) (later : List Char) :
    triviaLength false (c :: later) = 1 + triviaLength false later := by
  rw [triviaLength, if_neg (by decide), if_pos h]

theorem triviaLength_slashes (later : List Char) :
    triviaLength false ('/' :: '/' :: later) = 2 + triviaLength true later := by
  show 1 + (1 + triviaLength true later) = _
  omega

theorem triviaLength_bare {text : List Char} (h : Bare text) : triviaLength false text = 0 := by
  cases text with
  | nil => rfl
  | cons c later =>
    have hblank : isBlank c = false := h.1 c rfl
    have hslashes : (c == '/' && later.head? == some '/') = false := by
      refine Bool.eq_false_iff.mpr fun hslashes => h.2 ?_
      simp only [Bool.and_eq_true, beq_iff_eq] at hslashes
      obtain ⟨rfl, hsecond⟩ := hslashes
      obtain ⟨rest, rfl⟩ := List.head?_eq_some_iff.mp hsecond
      exact ⟨rest, rfl⟩
    rw [triviaLength, if_neg (by decide), hblank, if_neg (by decide), hslashes, if_neg (by decide)]

/-- Inside a comment, all up to the line end counts. The line end itself is no part of it. -/
theorem triviaLength_comment (text : List Char) :
    ∃ body rest, text = body ++ rest ∧ '\n' ∉ body ∧ (rest = [] ∨ ∃ later, rest = '\n' :: later)
      ∧ triviaLength true text = body.length + triviaLength false rest := by
  induction text with
  | nil => exact ⟨[], [], rfl, List.not_mem_nil, Or.inl rfl, rfl⟩
  | cons c text ih =>
    by_cases hc : c = '\n'
    · subst hc
      refine ⟨[], '\n' :: text, rfl, List.not_mem_nil, Or.inr ⟨text, rfl⟩, ?_⟩
      rw [triviaLength_blank (by decide), triviaLength, if_pos rfl]
      exact (Nat.zero_add _).symm
    · obtain ⟨body, rest, heq, hbody, hrest, hlength⟩ := ih
      refine ⟨c :: body, rest, by rw [heq]; rfl, ?_, hrest, ?_⟩
      · exact List.not_mem_cons_of_ne_of_not_mem (Ne.symm hc) hbody
      · rw [triviaLength, if_pos rfl, bne_iff_ne.mpr hc, hlength, List.length_cons]
        omega

/-- **As many characters are skipped as there are trivia**, by induction on the length of the
text. -/
theorem triviaLength_spec (text : List Char) :
    ∃ gap rest, text = gap ++ rest ∧ gap.length = triviaLength false text
      ∧ Trivia rest gap ∧ Bare rest := by
  induction hn : text.length using Nat.strongRecOn generalizing text with
  | ind n ih =>
    by_cases hbare : Bare text
    · exact ⟨[], text, rfl, (triviaLength_bare hbare).symm, .none, hbare⟩
    · rcases exists_of_not_bare hbare with ⟨c, later, rfl, hc⟩ | ⟨later, rfl⟩
      · rw [List.length_cons] at hn
        obtain ⟨gap, rest, rfl, hlength, htrivia, hrest⟩ := ih _ (by omega) later rfl
        refine ⟨c :: gap, rest, rfl, ?_, .blank hc htrivia, hrest⟩
        rw [triviaLength_blank hc, List.length_cons, hlength]
        omega
      · obtain ⟨body, line, rfl, hbody, hline, hcount⟩ := triviaLength_comment later
        rw [List.length_cons, List.length_cons, List.length_append] at hn
        obtain ⟨gap, rest, rfl, hlength, htrivia, hrest⟩ := ih _ (by omega) line rfl
        refine ⟨'/' :: '/' :: (body ++ gap), rest, by simp, ?_, ?_, hrest⟩
        · rw [triviaLength_slashes, hcount, ← hlength, List.length_cons, List.length_cons,
            List.length_append]
          omega
        -- the comment ends the text, or else the trivia go on with its line end
        · cases gap with
          | nil =>
            rcases hline with hline | ⟨later, hline⟩
            · rw [List.append_nil]
              exact .lastComment hbody hline
            · rw [List.nil_append] at hline
              subst hline
              exact absurd (hrest.1 '\n' rfl) (by decide)
          | cons c gap =>
            rcases hline with hline | ⟨later, hline⟩
            · cases hline
            · cases hline
              exact .comment hbody htrivia

/-- A comment ends in front of its line end, which is blank and skipped next. -/
theorem triviaLength_lineEnd (later : List Char) :
    triviaLength true ('\n' :: later) = triviaLength false ('\n' :: later) := by
  rw [triviaLength_blank (by decide), triviaLength, if_pos rfl]
  rfl

/-- Inside a comment, characters that end no line are skipped. -/
theorem triviaLength_body {body : List Char} (h : '\n' ∉ body) (rest : List Char) :
    triviaLength true (body ++ rest) = body.length + triviaLength true rest := by
  induction body with
  | nil => rw [List.nil_append, List.length_nil, Nat.zero_add]
  | cons c body ih =>
    have hc : (c != '\n') = true := by
      refine bne_iff_ne.mpr ?_
      rintro rfl
      exact h (List.mem_cons_self ..)
    have hlater := ih fun hmem => h (List.mem_cons_of_mem _ hmem)
    rw [List.cons_append, triviaLength, if_pos rfl, hc, hlater, List.length_cons]
    omega

/-- **Trivia in front of a bare text are skipped, and nothing else is**, so a text splits in one way
only. -/
theorem triviaLength_of_trivia {gap rest : List Char} (h : Trivia rest gap) (hbare : Bare rest) :
    triviaLength false (gap ++ rest) = gap.length := by
  induction h with
  | none => exact triviaLength_bare hbare
  | blank hc _ ih =>
    rw [List.cons_append, triviaLength_blank hc, ih, List.length_cons]
    omega
  | @comment body gap hbody _ ih =>
    have hsplit : '/' :: '/' :: (body ++ '\n' :: gap) ++ rest
        = '/' :: '/' :: (body ++ ('\n' :: gap ++ rest)) := by simp
    have hline : triviaLength true ('\n' :: gap ++ rest) = ('\n' :: gap).length :=
      (triviaLength_lineEnd _).trans ih
    rw [hsplit, triviaLength_slashes, triviaLength_body hbody, hline]
    simp only [List.length_cons, List.length_append]
    omega
  | @lastComment body hbody hafter =>
    subst hafter
    have hbody : triviaLength true body = body.length := by
      have hcount := triviaLength_body hbody []
      rwa [List.append_nil] at hcount
    rw [List.append_nil, triviaLength_slashes, hbody, List.length_cons, List.length_cons]
    omega

/-! ## Places -/

namespace Cursor

/-- A place behind characters that follow it. -/
theorem advance_length (passed rest : List Char) (line : Nat) :
    (⟨passed ++ rest, line⟩ : Cursor).advance passed.length
      = ⟨rest, line + passed.count '\n'⟩ := by
  rw [advance, List.drop_left, List.take_left]

/-- From any place, trivia are skipped up to a bare text. -/
theorem skipTrivia_spec (c : Cursor) :
    ∃ gap rest, c.rest = gap ++ rest ∧ Trivia rest gap ∧ Bare rest
      ∧ c.skipTrivia = ⟨rest, c.line + gap.count '\n'⟩ := by
  obtain ⟨gap, rest, heq, hlength, htrivia, hbare⟩ := triviaLength_spec c.rest
  refine ⟨gap, rest, heq, htrivia, hbare, ?_⟩
  rw [skipTrivia, ← hlength, ← advance_length gap rest c.line, ← heq]

/-- And there is no other place that they are skipped to. -/
theorem skipTrivia_of_trivia {gap rest : List Char} (h : Trivia rest gap) (hbare : Bare rest)
    (line : Nat) :
    (⟨gap ++ rest, line⟩ : Cursor).skipTrivia = ⟨rest, line + gap.count '\n'⟩ := by
  rw [skipTrivia, triviaLength_of_trivia h hbare, advance_length]

end Cursor

end Lox
