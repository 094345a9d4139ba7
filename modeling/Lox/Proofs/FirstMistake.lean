import Lox.Proofs.FirstError
import Lox.Proofs.LooseGrammar
import Lox.Proofs.Mistakes

/-!
# The first token that is wrong

When is a token too much? Could the parser have known sooner? The tokens in front of an error begin
an expression, or something that would be one but for what stands in front of its `=`. With the
token that is found behind them they begin neither.

For the first part the tokens are completed. For the second part the parser itself is asked: it
reads everything that has a place in the loose grammar, or fails at a left side, but behind these
tokens it fails in another way, whatever follows.
-/

namespace Lox

open Lox.Parser (facing)
open Lox.Parse (FailsWith)

variable {room line : Nat} {ts us before more : List Token} {t found last : Token}
  {error : SyntaxError}

/-! ## What the parser makes of the loose grammar -/

/-- What comes behind a beginning of tokens is one of them, or what follows the last one. -/
theorem exists_rest_of_prefix_concat (h : us ++ [found] <+: ts ++ [last]) :
    ∃ rest, ts = us ++ rest ∧ rest.headD last = found := by
  rcases List.prefix_concat_iff.mp h with hwhole | ⟨later, rfl⟩
  · obtain ⟨rfl, hlast⟩ := List.append_inj' hwhole rfl
    exact ⟨[], (List.append_nil _).symm, (List.cons.inj hlast).1.symm⟩
  · exact ⟨found :: later, List.append_assoc .., rfl⟩

/-- **What has a place in the loose grammar is read to its end**, or its parser fails at a left side
that is no target. -/
theorem Loose.read_or_fails (h : Loose room .assignment ts) (line depth : Nat) :
    (∃ e, Parse.assignment (Parse.inside room) (facing ts line depth)
        = .ok e (facing [] line depth))
      ∨ ∃ below, FailsWith (Parse.assignment (Parse.inside room)) (facing ts line depth)
          (.invalidAssignmentTarget below) := by
  have hend : (Token.atEnd line).kind ∉ Rule.continuations .assignment :=
    Rule.end_not_continuation _
  rcases h.phrase_or_spoiled (t := Token.atEnd line) fun _ => hend with ⟨e, he⟩ | hspoiled
  · have hread := (derives_accepts he.derives).1 room line depth [] he.fits hend
    rw [List.append_nil] at hread
    exact Or.inl ⟨e, hread⟩
  · obtain ⟨k, us, found, below, hpre, hf⟩ := hspoiled
    obtain ⟨rest, rfl, hfound⟩ := exists_rest_of_prefix_concat hpre
    exact Or.inr ⟨below, hf.fails nofun rest line depth hfound⟩

/-- So what the parser fails at in another way has no place in it. -/
theorem not_loose_of_fails {depth : Nat}
    (h : FailsWith (Parse.assignment (Parse.inside room)) (facing ts line depth) error)
    (hfound : error.found? = some found) : ¬ Loose room .assignment ts := by
  intro hloose
  obtain ⟨p, hp⟩ := h
  rcases hloose.read_or_fails line depth with ⟨e, he⟩ | ⟨below, p', hp'⟩
  · rw [he] at hp
    cases hp
  · rw [hp'] at hp
    cases hp
    cases hfound

/-- And so does what the parser reads only a part of. -/
theorem not_loose_of_phrase {e : Expr} (h : Phrase .assignment room ts e)
    (hstop : t.kind ∉ Rule.continuations .assignment) (hend : t.kind ≠ .endOfText) :
    ¬ Loose room .assignment (ts ++ t :: more) := by
  intro hloose
  have hread := (derives_accepts h.derives).1 room 0 0 (t :: more) h.fits hstop
  have hread : Parse.assignment (Parse.inside room) (facing (ts ++ t :: more) 0 0)
      = .ok e (facing (t :: more) 0 0) := hread
  rcases hloose.read_or_fails 0 0 with ⟨e', he'⟩ | ⟨below, p', hp'⟩
  · rw [he'] at hread
    have hsame : facing [] 0 0 = facing (t :: more) 0 0 := (EStateM.Result.ok.inj hread).2
    have hcurrent : Token.atEnd 0 = t := congrArg Parser.current hsame
    rw [← hcurrent] at hend
    exact hend rfl
  · rw [hp'] at hread
    cases hread

/-! ## Texts -/

theorem SyntaxError.line_of_found? (h : error.found? = some t) : error.line = t.line := by
  cases error with
  | unexpectedToken _ _ => cases h; rfl
  | expectedExpression _ => cases h; rfl
  | _ => cases h

namespace Parser

variable {p : Parser}

/-- A failure that is about a token leaves the end of the text as it is. -/
theorem LeavesEnding.of_found {ending : Ending} (h : LeavesEnding ending p error)
    (hfound : error.found? = some t) : p.ahead.ending = ending := by
  cases error with
  | unexpectedToken _ _ => exact h
  | expectedExpression _ => exact h
  | _ => cases hfound

/-- The token that a parser looks at is the next one of the text, or its end. -/
theorem Ready.exists_after (h : p.Ready) (hending : p.ahead.ending = .finished line) :
    ∃ after, p.pending ++ [Token.atEnd line] = p.current :: after
      ∧ (p.current.kind = .endOfText → after = []) := by
  by_cases hend : p.current.kind = .endOfText
  · obtain ⟨last, hcurrent, hahead⟩ := h.at_end hend
    rw [hahead] at hending
    cases hending
    refine ⟨[], ?_, fun _ => rfl⟩
    rw [pending, if_pos hend, hcurrent]
    rfl
  · refine ⟨p.ahead.tokens ++ [Token.atEnd line], ?_, fun h => absurd h hend⟩
    rw [pending, if_neg hend]
    rfl

end Parser

/-- The tokens `before` begin something that has a place in the loose grammar, and the token `t`
behind them is too much, or too early if it is the end. -/
structure FirstWrong (room : Nat) (before : List Token) (t : Token) : Prop where
  begun : ∃ more, Loose room .assignment (before ++ more)
  wrong : t.kind ≠ .endOfText → ∀ more, ¬ Loose room .assignment (before ++ t :: more)
  early : t.kind = .endOfText → ¬ Loose room .assignment before

/-- A mistake that says what it has found is one. -/
theorem Fault.firstWrong {k : Nat} (h : Fault t room k .assignment before error)
    (hfound : error.found? = some found) (ht : t.kind = .endOfText → ∃ line, t = Token.atEnd line) :
    FirstWrong room before t := by
  have hgrammar : ∀ lexical, error ≠ .lexical lexical := by
    rintro lexical rfl
    cases hfound
  refine ⟨h.completes hfound, fun _ more => ?_, fun hend => ?_⟩
  · exact not_loose_of_fails (h.fails hgrammar (t :: more) 0 0 rfl) hfound
  · obtain ⟨line, rfl⟩ := ht hend
    have hfails := h.fails hgrammar [] line 0 rfl
    rw [List.append_nil] at hfails
    exact not_loose_of_fails hfails hfound

/-- Something behind a whole expression is one as well. -/
theorem Phrase.firstWrong {e : Expr} (h : Phrase .assignment room before e)
    (hstop : t.kind ∉ Rule.continuations .assignment) (hend : t.kind ≠ .endOfText) :
    FirstWrong room before t :=
  ⟨⟨[], by rw [List.append_nil]; exact h.loose⟩, fun _ _ => not_loose_of_phrase h hstop hend,
    fun ht => absurd ht hend⟩

/--
**A syntax error is reported at the first token that is wrong.**

If a text can be split but does not parse, and the error says that it has found a token `t`, then
`t` is one of its tokens, and the error is on the line of `t`. With the tokens in front of it
something begins that is an expression, if anything may stand in front of an `=`, and that is within
the limits. With `t` behind them nothing of the kind begins, or if `t` is the end of the text, they
are not the whole of it.
-/
theorem syntax_error_is_at_first_wrong_token {text : String} {tokens : List Token}
    (htokens : tokenize text = .ok tokens) (h : parse text = .error error)
    (hfound : error.found? = some t) :
    ∃ before after, tokens = before ++ t :: after ∧ error.line = t.line
      ∧ (∃ more, Loose maxNesting .assignment (before ++ more))
      ∧ (t.kind ≠ .endOfText → ∀ more, ¬ Loose maxNesting .assignment (before ++ t :: more))
      ∧ (t.kind = .endOfText → after = [] ∧ ¬ Loose maxNesting .assignment before) := by
  obtain ⟨words, line, hscan, rfl⟩ := tokenize_eq_ok.mp htokens
  rcases parse_eq_error.mp h with hstart | ⟨p, p', hstart, hwhole⟩
  · obtain ⟨_, rfl, _⟩ := Parser.start_eq_error hstart
    cases hfound
  obtain ⟨hpending, hending, hdepth, hready⟩ := Parser.start_eq_ok hstart
  rw [hscan] at hpending hending
  have hplace : ∃ before, p.pending = before ++ p'.pending ∧ p'.Ready
      ∧ p'.ahead.ending = .finished line ∧ t = p'.current ∧ FirstWrong maxNesting before t := by
    rcases Parse.whole_fails hready hwhole with
      ⟨k, ts, herrs⟩ | ⟨ts, e, hpass, he, hstop, hend, rfl⟩
    · rw [hdepth] at herrs
      obtain rfl : t = p'.current := herrs.fault.found?_eq hfound
      have hlast : p'.current.kind = .endOfText → ∃ line, p'.current = Token.atEnd line := by
        intro hend
        obtain ⟨line, hcurrent, _⟩ := herrs.ready.at_end hend
        exact ⟨line, hcurrent⟩
      exact ⟨ts, herrs.pending, herrs.ready, (herrs.ending.of_found hfound).trans hending, rfl,
        herrs.fault.firstWrong hfound hlast⟩
    · rw [hdepth] at he
      cases hfound
      exact ⟨ts, hpass.pending, hpass.ready, hpass.ending.trans hending, rfl,
        he.firstWrong hstop hend⟩
  obtain ⟨before, hwords, hready', hending', rfl, hwrong⟩ := hplace
  obtain ⟨after, hafter, hlast⟩ := hready'.exists_after hending'
  refine ⟨before, after, ?_, SyntaxError.line_of_found? hfound, hwrong.begun, hwrong.wrong,
    fun hend => ⟨hlast hend, hwrong.early hend⟩⟩
  rw [← hafter, ← List.append_assoc, ← hwords, hpending]

/-- Behind the `=` a value is missing. The left side is no target, but that would be found out only
behind the value. -/
theorem syntax_error_is_at_first_wrong_token_value :
    let token (kind : TokenKind) (lexeme : String) : Token := ⟨kind, lexeme, none, 1⟩
    let found : Token := ⟨.rightParen, ")", none, 2⟩
    let tokens := [token .leftParen "(", token .identifier "a", token .rightParen ")",
      token .equal "=", found, Token.atEnd 2]
    let error := SyntaxError.expectedExpression found
    tokenize "(a)=\n)" = .ok tokens ∧ parse "(a)=\n)" = .error error ∧ error.found? = some found
      ∧ ∃ before after, tokens = before ++ found :: after ∧ error.line = found.line
        ∧ (∃ more, Loose maxNesting .assignment (before ++ more))
        ∧ (found.kind ≠ .endOfText →
          ∀ more, ¬ Loose maxNesting .assignment (before ++ found :: more))
        ∧ (found.kind = .endOfText → after = [] ∧ ¬ Loose maxNesting .assignment before) := by
  intro token found tokens error
  have hscan : Scan.ofText "(a)=\n)" = ⟨[token .leftParen "(", token .identifier "a",
    token .rightParen ")", token .equal "=", found], .finished 2⟩ := rfl
  have htokens : tokenize "(a)=\n)" = .ok tokens := tokenize_eq_ok.mpr ⟨_, 2, hscan, rfl⟩
  have hparse : parse "(a)=\n)" = .error error := parse_error_of_scan hscan rfl
  exact ⟨htokens, hparse, rfl, syntax_error_is_at_first_wrong_token htokens hparse rfl⟩

end Lox
