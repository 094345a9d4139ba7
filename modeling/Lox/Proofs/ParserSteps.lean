import Lox.Expr.Parser
import Lox.Proofs.Lexed
import Lox.Proofs.Step

/-!
# Moving through the tokens

The rules of a parser are made of a few steps that look at one token and perhaps pass it. This file
says of each when it succeeds, and what it passes: `Passes p ts p'` says that between `p` and `p'`
the parser passed the tokens `ts`, all of them and nothing else, and has as many levels open as
before.
-/

namespace Lox

namespace Parse

variable {p p' : Parser} {t : Token}

/-! ## When a step succeeds -/

theorem accept?_eq_ok {kinds : List TokenKind} {o : Option Token} :
    accept? kinds p = .ok o p' ↔
      (p.current.kind ∉ kinds ∧ o = none ∧ p' = p)
        ∨ p.current.kind ∈ kinds ∧ ∃ t, o = some t ∧ advance p = .ok t p' := by
  show (if _ then _ else _ : Parse _) p = _ ↔ _
  split
  · rename_i hk
    rw [Step.bind_eq_ok]
    refine ⟨fun ⟨t, p₁, ha, h⟩ => ?_, fun h => ?_⟩
    · obtain ⟨rfl, rfl⟩ := Step.pure_eq_ok.mp h
      exact Or.inr ⟨hk, t, rfl, ha⟩
    · rcases h with ⟨hn, _⟩ | ⟨_, t, rfl, ha⟩
      · exact absurd hk hn
      · exact ⟨t, p', ha, rfl⟩
  · rename_i hk
    rw [Step.pure_eq_ok]
    refine ⟨fun ⟨ho, hp⟩ => Or.inl ⟨hk, ho.symm, hp.symm⟩, fun h => ?_⟩
    rcases h with ⟨_, rfl, rfl⟩ | ⟨hm, _⟩
    · exact ⟨rfl, rfl⟩
    · exact absurd hm hk

theorem expect_eq_ok {expected : Expectation} :
    expect expected p = .ok t p' ↔ p.current.kind = expected.kind ∧ advance p = .ok t p' := by
  show (if _ then _ else _ : Parse _) p = _ ↔ _
  split
  · rename_i hk
    exact ⟨fun h => ⟨hk, h⟩, fun h => h.2⟩
  · rename_i hk
    exact ⟨fun h => (by cases h), fun h => absurd h.1 hk⟩

theorem nested_eq_ok {α : Type} {inner : Option Level} {line : Nat} {part : Level → Parse α}
    {a : α} :
    nested inner line part p = .ok a p' ↔
      ∃ level p₁, inner = some level
        ∧ part level { p with depth := p.depth + 1 } = .ok a p₁
        ∧ p' = { p₁ with depth := p₁.depth - 1 } := by
  cases inner with
  | none => exact ⟨fun h => (by cases h), fun ⟨_, _, h, _⟩ => (by cases h)⟩
  | some level =>
      show ((modify _ >>= fun _ => part level >>= fun _ => modify _ >>= fun _ => _ : Parse α) p
        = _) ↔ _
      refine ⟨fun h => ?_, fun ⟨_, p₁, hl, hp, hp'⟩ => ?_⟩
      · obtain ⟨_, _, h₁, h⟩ := Step.bind_eq_ok.mp h
        cases h₁
        obtain ⟨_, p₁, hp, h⟩ := Step.bind_eq_ok.mp h
        cases h
        exact ⟨level, p₁, rfl, hp, rfl⟩
      · cases hl
        subst hp'
        exact Step.bind_eq_ok.mpr ⟨(), _, rfl, Step.bind_eq_ok.mpr ⟨a, p₁, hp, rfl⟩⟩

/-- A part that fails leaves the level open that was opened for it. -/
theorem nested_of_error {α : Type} {level : Level} {line : Nat} {part : Level → Parse α}
    {error : SyntaxError} (h : part level { p with depth := p.depth + 1 } = .error error p') :
    nested (some level) line part p = .error error p' := by
  have hdown : (modify (fun p : Parser => { p with depth := p.depth + 1 }) : Parse PUnit) p
      = .ok () { p with depth := p.depth + 1 } := rfl
  exact (Step.bind_of_ok hdown).trans (Step.bind_of_error h)

end Parse

/-! ## What a step passes -/

namespace Parser

/-- The tokens a parser has not passed yet. The one for the end of the text is none of them. -/
def pending (p : Parser) : List Token :=
  if p.current.kind = .endOfText then [] else p.current :: p.ahead.tokens

/-- A parser of the tokens of a text. -/
structure Ready (p : Parser) : Prop where
  /-- What is left are words of the text. -/
  lexed : ∀ t ∈ p.pending, t.Lexed
  /-- The end is met only if the text has no error in front of it. -/
  at_end : p.current.kind = .endOfText →
    ∃ line, p.current = Token.atEnd line ∧ p.ahead = ⟨[], .finished line⟩

/-- Between `p` and `p'` the tokens `ts` were passed. -/
structure Passes (p : Parser) (ts : List Token) (p' : Parser) : Prop where
  /-- They are what is not pending any more. -/
  pending : p.pending = ts ++ p'.pending
  /-- What follows the last token of the text has not changed. -/
  ending : p'.ahead.ending = p.ahead.ending
  /-- The same levels are open. -/
  depth : p'.depth = p.depth
  ready : p'.Ready

variable {p p' p'' : Parser} {ts us : List Token}

theorem passes_refl (h : p.Ready) : p.Passes [] p := ⟨rfl, rfl, rfl, h⟩

theorem passes_trans (h₁ : p.Passes ts p') (h₂ : p'.Passes us p'') : p.Passes (ts ++ us) p'' := by
  refine ⟨?_, h₂.ending.trans h₁.ending, h₂.depth.trans h₁.depth, h₂.ready⟩
  rw [h₁.pending, h₂.pending, List.append_assoc]

/-- How many levels are open makes no difference to the tokens. -/
theorem ready_atDepth {d : Nat} (h : p.Ready) : Ready { p with depth := d } := ⟨h.lexed, h.at_end⟩

/-- What is passed one level further in is passed. -/
theorem passes_nested (h : Passes { p with depth := p.depth + 1 } ts p') :
    p.Passes ts { p' with depth := p'.depth - 1 } := by
  have hd : p'.depth = p.depth + 1 := h.depth
  refine ⟨h.pending, h.ending, ?_, ready_atDepth h.ready⟩
  show p'.depth - 1 = p.depth
  omega

end Parser

namespace Parse

variable {p p' : Parser} {t : Token}

/-- A step to the next token passes the one the parser looks at. -/
theorem advance_passes (hp : p.Ready) (hk : p.current.kind ≠ .endOfText)
    (h : advance p = .ok t p') : t = p.current ∧ p.Passes [t] p' := by
  obtain ⟨current, ⟨tokens, ending⟩, depth⟩ := p
  have hpend : Parser.pending ⟨current, ⟨tokens, ending⟩, depth⟩ = current :: tokens := if_neg hk
  cases tokens with
  | nil =>
      -- the last token is passed only if no error is found behind it
      cases ending with
      | finished line =>
          cases h
          refine ⟨rfl, hpend, rfl, rfl, ?_, fun _ => ⟨line, rfl, rfl⟩⟩
          intro u hu
          exact absurd hu (by simp [Parser.pending, Token.atEnd])
      | unexpected c line => cases h
      | unterminated line last => cases h
  | cons next tokens =>
      cases h
      have hl := hp.lexed
      rw [hpend] at hl
      have hn : next.Lexed := hl next (by simp)
      have hpend' : Parser.pending ⟨next, ⟨tokens, ending⟩, depth⟩ = next :: tokens :=
        if_neg hn.not_end
      refine ⟨rfl, ?_, rfl, rfl, ?_, fun he => absurd he hn.not_end⟩
      · rw [hpend, hpend']; rfl
      · intro u hu
        rw [hpend'] at hu
        exact hl u (List.mem_cons_of_mem _ hu)

theorem accept?_passes {kinds : List TokenKind} {o : Option Token} (hp : p.Ready)
    (hend : TokenKind.endOfText ∉ kinds) (h : accept? kinds p = .ok o p') :
    (o = none ∧ p' = p) ∨ ∃ t, o = some t ∧ t.kind ∈ kinds ∧ p.Passes [t] p' := by
  rcases accept?_eq_ok.mp h with ⟨_, ho, hp'⟩ | ⟨hk, t, ho, ha⟩
  · exact Or.inl ⟨ho, hp'⟩
  · obtain ⟨ht, hpass⟩ := advance_passes hp (fun he => hend (he ▸ hk)) ha
    exact Or.inr ⟨t, ho, ht ▸ hk, hpass⟩

theorem expect_passes {expected : Expectation} (hp : p.Ready)
    (hend : expected.kind ≠ .endOfText) (h : expect expected p = .ok t p') :
    t.kind = expected.kind ∧ p.Passes [t] p' := by
  obtain ⟨hk, ha⟩ := expect_eq_ok.mp h
  obtain ⟨ht, hpass⟩ := advance_passes hp (hk ▸ hend) ha
  exact ⟨ht ▸ hk, hpass⟩

end Parse

/-- A text parses if the parser at its start comes to the end of a whole expression. -/
theorem parse_eq_ok {text : String} {e : Expr} :
    parse text = .ok e ↔
      ∃ p p', Parser.start text = .ok p ∧ Parse.whole p = .ok e p' := by
  unfold parse
  cases hs : Parser.start text with
  | error error =>
      constructor
      · intro h; cases h
      · rintro ⟨_, _, h, _⟩; cases h
  | ok p =>
      dsimp only [bind, Except.bind]
      cases hw : Parse.whole p with
      | error error p' =>
          constructor
          · intro h; cases h
          · rintro ⟨_, _, h, hw'⟩; cases h; rw [hw] at hw'; cases hw'
      | ok e' p' =>
          constructor
          · intro h; cases h; exact ⟨p, p', rfl, hw⟩
          · rintro ⟨_, _, h, hw'⟩; cases h; rw [hw] at hw'; cases hw'; rfl

/-- The first token of a scan is where the parser starts. -/
theorem parse_of_scan {text : String} {token : Token} {later : List Token} {ending : Ending}
    {e : Expr} {p : Parser} (hscan : Scan.ofText text = ⟨token :: later, ending⟩)
    (hwhole : Parse.whole ⟨token, ⟨later, ending⟩, 0⟩ = .ok e p) : parse text = .ok e := by
  refine parse_eq_ok.mpr ⟨_, p, ?_, hwhole⟩
  unfold Parser.start
  rw [hscan]
  rfl

namespace Parser

variable {p p' : Parser} {e : Expr} {error : SyntaxError} {request : Request}

theorem ask_eq_ok : p.ask request = (.ok e, p') ↔ request.parse p = .ok e p' := by
  unfold ask
  cases request.parse p with
  | ok e₁ p₁ =>
      constructor
      · intro h; cases h; rfl
      · intro h; cases h; rfl
  | error error p₁ =>
      constructor
      · intro h; cases h
      · intro h; cases h

theorem ask_eq_error : p.ask request = (.error error, p') ↔ request.parse p = .error error p' := by
  unfold ask
  cases request.parse p with
  | ok e p₁ =>
      constructor
      · intro h; cases h
      · intro h; cases h
  | error error₁ p₁ =>
      constructor
      · intro h; cases h; rfl
      · intro h; cases h; rfl

end Parser

end Lox
