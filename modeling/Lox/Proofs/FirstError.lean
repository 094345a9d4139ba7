import Lox.Command
import Lox.Proofs.ErrorLines
import Lox.Proofs.OpenLevels
import Lox.Proofs.Reading

/-!
# The first error of a text

A parser asks for one token after the other, and may stop for a reason of its own before it has
seen them all. Splitting a text goes through all of its tokens. Both come to the same first error
of the text, if they come to one: the parser because every error of its own is about a token in
front of that place (`Parser.Blames`), and because what it is asked for it does not give behind
the place.

So a command that needs the expression of a text fails on every text that cannot be split.
-/

namespace Lox

/-! ## One reading is one step of a scan -/

/-- **A step of a scan is a reading of the text**, and what follows it is the scan of the next
place. -/
theorem Scan.next_ofCursor (c : Cursor) : (ofCursor c).next = (c.next.1, ofCursor c.next.2) := by
  induction c using ofCursor_induction with
  | finished c line hnext hscan =>
    have hagain := Cursor.next_of_end hnext rfl
    rw [hscan, hnext, ofCursor_of_end hagain rfl]
    rfl
  | token c t c' hnext ht hscan ih =>
    rw [hscan, hnext]
    rfl
  | unexpected c char line c' hnext hscan =>
    have hagain := Cursor.next_of_unexpected hnext
    rw [hscan, hnext, ofCursor_of_unexpected hagain]
    rfl
  | unterminated c line last hnext hscan =>
    have hagain := Cursor.next_of_unterminated hnext
    rw [hscan, hnext, ofCursor_of_end hagain rfl]
    rfl

/-! ## Lines in front of an error -/

/-- No token in front of an error is on a line below it. -/
theorem Scan.line_le_of_error (c : Cursor) {error : LexError}
    (h : (ofCursor c).ending.next.1 = .error error) :
    c.line ≤ error.line ∧ ∀ t ∈ (ofCursor c).tokens, t.line ≤ error.line := by
  induction c using ofCursor_induction with
  | finished c line hnext hscan =>
    rw [hscan] at h
    cases h
  | token c t c' hnext ht hscan ih =>
    rw [hscan] at h ⊢
    obtain ⟨hplace, htokens⟩ := ih h
    obtain ⟨habove, hbelow⟩ := Cursor.line_of_token hnext
    refine ⟨by omega, fun u hu => ?_⟩
    rcases List.mem_cons.mp hu with rfl | hu
    · omega
    · exact htokens u hu
  | unexpected c char line c' hnext hscan =>
    rw [hscan] at h ⊢
    cases h
    exact ⟨(Cursor.line_of_error hnext).1, fun t ht => absurd ht List.not_mem_nil⟩
  | unterminated c line last hnext hscan =>
    rw [hscan] at h ⊢
    cases h
    exact ⟨(Cursor.line_of_error hnext).1, fun t ht => absurd ht List.not_mem_nil⟩

/-- A text cannot be split if its tokens end in an error, which is then the one that is found. -/
theorem tokenize_eq_error {text : String} {error : LexError} :
    tokenize text = .error error ↔ (Scan.ofText text).ending.next.1 = .error error := by
  unfold tokenize Scan.toTokens
  cases (Scan.ofText text).ending.next.1 with
  | ok last => constructor <;> nofun
  | error error' => exact ⟨fun h => by cases h; rfl, fun h => by cases h; rfl⟩

/-! ## What a parser says about a text with an error -/

/-- The error is one of the grammar, on the line of one of the tokens. -/
def SyntaxError.OnLineOf (tokens : List Token) (error : SyntaxError) : Prop :=
  (∀ lexical, error ≠ .lexical lexical) ∧ ∃ t ∈ tokens, error.line = t.line

namespace Parser

variable {p p' : Parser} {error : SyntaxError}

/-- If the tokens end in an error, the token that a parser looks at is one of them. -/
theorem Ready.current_mem {lexical : LexError} (h : p.Ready)
    (hending : p.ahead.ending.next.1 = .error lexical) : p.current ∈ p.pending := by
  by_cases hend : p.current.kind = .endOfText
  · obtain ⟨line, _, hahead⟩ := h.at_end hend
    rw [hahead] at hending
    cases hending
  · rw [pending, if_neg hend]
    exact List.mem_cons_self ..

/-- **A parser of a text with an error reports that error, or one of the grammar on the line of a
token in front of it.** -/
theorem error_of_request {request : Request} {lexical : LexError} (hp : p.Ready)
    (hending : p.ahead.ending.next.1 = .error lexical) (h : request.parse p = .error error p') :
    error = .lexical lexical ∨ error.OnLineOf p.pending := by
  obtain ⟨k, ts, hhalts⟩ := Request.parse_fails hp h
  have hpassed : ∀ t ∈ ts, t ∈ p.pending := by
    intro t ht
    rw [hhalts.pending]
    exact List.mem_append_left _ ht
  -- the parser has not come to the end of the text, for there is none
  have hcurrent : p'.ahead.ending = p.ahead.ending → p'.current ∈ p.pending := by
    intro hsame
    rw [hhalts.pending]
    exact List.mem_append_right _ (hhalts.ready.current_mem (by rwa [hsame]))
  cases hhalts.blames with
  | lexical herror _ =>
      rw [hending] at herror
      cases herror
      exact Or.inl rfl
  | unexpectedToken hsame _ => exact Or.inr ⟨nofun, _, hcurrent hsame, rfl⟩
  | expectedExpression hsame _ => exact Or.inr ⟨nofun, _, hcurrent hsame, rfl⟩
  | tooManyArguments hsame => exact Or.inr ⟨nofun, _, hcurrent hsame, rfl⟩
  | invalidAssignmentTarget hmem => exact Or.inr ⟨nofun, _, hpassed _ hmem, rfl⟩
  | tooDeep hmem => exact Or.inr ⟨nofun, _, hpassed _ hmem, rfl⟩
  | argumentsTooDeep hsame => exact Or.inr ⟨nofun, _, hcurrent hsame, rfl⟩

/-- An error of the text that a parser reports is the one that its tokens end in. -/
theorem lexical_of_request {request : Request} {lexical : LexError} (hp : p.Ready)
    (h : request.parse p = .error (.lexical lexical) p') :
    p.ahead.ending.next.1 = .error lexical := by
  obtain ⟨k, ts, hhalts⟩ := Request.parse_fails hp h
  cases hhalts.blames with
  | lexical herror _ => exact herror

/-- A parser does not start only if the text has no first token. -/
theorem start_eq_error {text : String} (h : start text = .error error) :
    ∃ lexical, error = .lexical lexical ∧ (Scan.ofText text).ending.next.1 = .error lexical := by
  unfold start at h
  generalize Scan.ofText text = scan at h
  obtain ⟨tokens, ending⟩ := scan
  cases tokens with
  | cons t tokens => cases h
  | nil =>
      cases ending with
      | finished line => cases h
      | unexpected c line => cases h; exact ⟨_, rfl, rfl⟩
      | unterminated line last => cases h; exact ⟨_, rfl, rfl⟩

end Parser

section Texts

variable {text : String} {error : SyntaxError}

/-- A text does not parse if a parser cannot start on it, or fails before its end. -/
theorem parse_eq_error :
    parse text = .error error ↔ Parser.start text = .error error
      ∨ ∃ p p', Parser.start text = .ok p ∧ Request.whole.parse p = .error error p' := by
  unfold parse
  cases hstart : Parser.start text with
  | error error' =>
      constructor
      · intro h; cases h; exact Or.inl rfl
      · rintro (h | ⟨_, _, h, _⟩) <;> cases h; rfl
  | ok p =>
      dsimp only [bind, Except.bind]
      cases hwhole : Parse.whole p with
      | error error' p' =>
          constructor
          · intro h; cases h; exact Or.inr ⟨p, p', rfl, hwhole⟩
          · rintro (h | ⟨_, _, h, hw⟩) <;> cases h
            rw [show Parse.whole p = _ from hw] at hwhole
            cases hwhole
            rfl
      | ok e p' =>
          constructor
          · intro h; cases h
          · rintro (h | ⟨_, _, h, hw⟩) <;> cases h
            rw [show Parse.whole p = _ from hw] at hwhole
            cases hwhole

/-- The first token of a scan is where the parser starts, also if it then fails. -/
theorem parse_error_of_scan {token : Token} {later : List Token} {ending : Ending} {p' : Parser}
    (hscan : Scan.ofText text = ⟨token :: later, ending⟩)
    (hwhole : Parse.whole ⟨token, ⟨later, ending⟩, 0⟩ = .error error p') :
    parse text = .error error := by
  refine parse_eq_error.mpr (Or.inr ⟨_, p', ?_, hwhole⟩)
  unfold Parser.start
  rw [hscan]
  rfl

/-- What a text that cannot be split is parsed as. -/
theorem parse_of_lexical {lexical : LexError}
    (hscan : (Scan.ofText text).ending.next.1 = .error lexical) :
    ∃ error, parse text = .error error
      ∧ (error = .lexical lexical ∨ error.OnLineOf (Scan.ofText text).tokens) := by
  cases hparse : parse text with
  | ok e =>
      obtain ⟨tokens, line, htokens, _⟩ := parse_derives hparse
      rw [tokenize_eq_error.mpr hscan] at htokens
      cases htokens
  | error error =>
      refine ⟨error, rfl, ?_⟩
      rcases parse_eq_error.mp hparse with hstart | ⟨p, p', hstart, hwhole⟩
      · obtain ⟨lexical', rfl, herror⟩ := Parser.start_eq_error hstart
        rw [hscan] at herror
        cases herror
        exact Or.inl rfl
      · obtain ⟨hpending, hending, _, hready⟩ := Parser.start_eq_ok hstart
        rw [← hending] at hscan
        rw [← hpending]
        exact Parser.error_of_request hready hscan hwhole

/-- An error of the text that it is parsed as is the one that it is split into. -/
theorem tokenize_of_parse_lexical {lexical : LexError}
    (h : parse text = .error (.lexical lexical)) : tokenize text = .error lexical := by
  refine tokenize_eq_error.mpr ?_
  rcases parse_eq_error.mp h with hstart | ⟨p, p', hstart, hwhole⟩
  · obtain ⟨lexical', heq, herror⟩ := Parser.start_eq_error hstart
    cases heq
    exact herror
  · obtain ⟨_, hending, _, hready⟩ := Parser.start_eq_ok hstart
    rw [← hending]
    exact Parser.lexical_of_request hready hwhole

end Texts

/-! ## Commands -/

namespace Command

variable {clock : Clock} {text : String}

/-- The list of tokens is not printed only if the text cannot be split. -/
theorem tokenize_of_run_error {error : CommandError} (h : run clock .tokens text = .error error) :
    ∃ lexical, tokenize text = .error lexical := by
  unfold run at h
  cases htokens : tokenize text with
  | ok tokens => rw [htokens] at h; cases h
  | error lexical => exact ⟨lexical, rfl⟩

/-- The other commands need the expression of the text. -/
theorem run_of_parse_error {error : SyntaxError} (h : parse text = .error error) {command : Command}
    (hcommand : command ≠ .tokens) : run clock command text = .error (.ofParse error) := by
  have hexpression : expression text = .error (.ofParse error) := by
    unfold expression
    rw [h]
    rfl
  unfold run
  cases command with
  | tokens => exact absurd rfl hcommand
  | _ =>
      dsimp only
      rw [hexpression]
      rfl

end Command

/-- **Splitting a text and parsing it agree on what is wrong with it.** What parses can be split.
What can be split is not parsed as an error of the text. What cannot be split does not parse: it
is the same error, or one of the grammar that is not on a line below it. So no command prints
anything for a text whose tokens cannot be listed.

The first part is what makes the tokens of a scan those that a parser asks for one by one. -/
theorem splitting_and_parsing_agree (text : String) :
    (∀ c : Cursor, (Scan.ofCursor c).next = (c.next.1, Scan.ofCursor c.next.2))
      ∧ (∀ e, parse text = .ok e → ∃ tokens, tokenize text = .ok tokens)
      ∧ (∀ tokens, tokenize text = .ok tokens → ∀ lexical, parse text ≠ .error (.lexical lexical))
      ∧ (∀ lexical, tokenize text = .error lexical → ∃ error, parse text = .error error
          ∧ (error = .lexical lexical
            ∨ (∀ other, error ≠ .lexical other) ∧ error.line ≤ lexical.line))
      ∧ ∀ clock error, Command.execute clock .tokens (some text) = .error error →
          ∀ clock' command, ∃ error',
            Command.execute clock' command (some text) = .error error' := by
  refine ⟨Scan.next_ofCursor, ?parses, ?splits, ?fails, ?commands⟩
  case parses =>
    intro e hparse
    obtain ⟨tokens, line, htokens, _⟩ := parse_derives hparse
    exact ⟨_, htokens⟩
  case splits =>
    intro tokens htokens lexical hparse
    rw [tokenize_of_parse_lexical hparse] at htokens
    cases htokens
  case fails =>
    intro lexical hsplit
    have hending := tokenize_eq_error.mp hsplit
    obtain ⟨error, hparse, hwhich⟩ := parse_of_lexical hending
    refine ⟨error, hparse, hwhich.imp_right ?_⟩
    rintro ⟨hgrammar, t, ht, hline⟩
    rw [hline]
    exact ⟨hgrammar, (Scan.line_le_of_error _ hending).2 t ht⟩
  case commands =>
    intro clock error hexecute clock' command
    have hrun : Command.run clock .tokens text = .error error := hexecute
    obtain ⟨lexical, hsplit⟩ := Command.tokenize_of_run_error hrun
    by_cases hcommand : command = .tokens
    · subst hcommand
      exact ⟨error, hexecute⟩
    · obtain ⟨error', hparse, _⟩ := parse_of_lexical (tokenize_eq_error.mp hsplit)
      exact ⟨_, Command.run_of_parse_error hparse hcommand⟩

/-- Both come to the character, or a parenthesis stops the parser on the line above it. -/
theorem splitting_and_parsing_agree_number_sign :
    let lexical : LexError := .unexpectedCharacter '#' 2
    let found : Token := ⟨.rightParen, ")", none, 1⟩
    tokenize "(a\n#" = .error lexical ∧ parse "(a\n#" = .error (.lexical lexical)
      ∧ tokenize ")\n#" = .error lexical ∧ parse ")\n#" = .error (.expectedExpression found)
      ∧ (SyntaxError.expectedExpression found).line ≤ lexical.line := by
  intro lexical found
  have hsplit : tokenize "(a\n#" = .error lexical := rfl
  have hparse : parse "(a\n#" = .error (.lexical lexical) := rfl
  have hsplit' : tokenize ")\n#" = .error lexical := rfl
  have hparse' : parse ")\n#" = .error (.expectedExpression found) := rfl
  obtain ⟨_, _, _, hfails, _⟩ := splitting_and_parsing_agree ")\n#"
  obtain ⟨error, herror, hwhich⟩ := hfails lexical hsplit'
  rw [hparse'] at herror
  cases herror
  rcases hwhich with hsame | ⟨_, hline⟩
  · cases hsame
  · exact ⟨hsplit, hparse, hsplit', hparse', hline⟩

end Lox
