import Lox.Proofs.FirstError

/-!
# The line of a level too many

A text may need more levels than can be opened. On which line does its parse say so? The level is
opened by a token, and it is the last one that has been passed: a sign, an `=` or a parenthesis. The
line is that of this token, unless it is the parenthesis of an argument list. Then it is the line of
the token behind it, which may stand further down.

Whether a parenthesis is that of an argument list can be told from the token in front of it. If it
is, an operand ends there; if it is not, an operand is still to begin.
-/

namespace Lox

namespace TokenKind

/-- The kinds of the tokens that an expression can end with. -/
def ends : List TokenKind := .identifier :: .rightParen :: literals

/-- The kinds of the tokens that open a level. -/
def openers : List TokenKind := .equal :: .leftParen :: signs

end TokenKind

/-- The last of these tokens is one that an expression can end with. -/
def EndsOperand (ts : List Token) : Prop := ∃ last ∈ ts.getLast?, last.kind ∈ TokenKind.ends

/-- A parenthesis behind these tokens that directly follows an operand. -/
def OpensArguments (ts : List Token) (opening : Token) : Prop :=
  opening.kind = .leftParen ∧ EndsOperand ts

section

variable {t opening : Token} {ts us : List Token} {rule : Rule} {room k line : Nat} {e : Expr}
  {error : SyntaxError}

/-! ## What stands in front of a parenthesis -/

theorem endsOperand_of_kind (ts : List Token) (hk : t.kind ∈ TokenKind.ends) :
    EndsOperand (ts ++ [t]) :=
  ⟨t, by simp, hk⟩

theorem EndsOperand.append (h : EndsOperand us) (ts : List Token) : EndsOperand (ts ++ us) := by
  obtain ⟨last, hlast, hk⟩ := h
  exact ⟨last, by simp [List.getLast?_append, Option.mem_def.mp hlast], hk⟩

/-- Behind a token that no expression ends with, nothing counts but what follows it. -/
theorem endsOperand_append_cons (ts us : List Token) (hk : t.kind ∉ TokenKind.ends) :
    EndsOperand (ts ++ t :: us) ↔ EndsOperand us := by
  refine ⟨fun ⟨last, hlast, hends⟩ => ?_, fun h => ?_⟩
  · rw [List.getLast?_append_cons, List.getLast?_cons] at hlast
    cases hus : us.getLast? with
    | none =>
        rw [hus] at hlast
        cases hlast
        exact absurd hends hk
    | some last' =>
        rw [hus] at hlast
        cases hlast
        exact ⟨last', hus, hends⟩
  · have hcons : EndsOperand ([t] ++ us) := h.append [t]
    exact hcons.append ts

/-- A phrase ends an operand. -/
theorem Derives.endsOperand (h : Derives rule ts e) : EndsOperand ts := by
  induction h with
  | tighter _ _ ih => exact ih
  | @assign name equals _ _ _ _ _ ih => exact ih.append [name, equals]
  | @set os _ _ _ dot name equals _ _ _ _ _ _ ih =>
      have hvalue := ih.append (os ++ [dot, name, equals])
      rwa [List.append_assoc] at hvalue
  | @operation _ _ ls _ _ _ operator _ _ _ _ _ ih =>
      have hright := ih.append (ls ++ [operator])
      rwa [List.append_assoc] at hright
  | @unary operator _ _ _ _ ih => exact ih.append [operator]
  | @call cs us _ opening _ _ _ _ _ _ hclosing _ _ =>
      have hlast := endsOperand_of_kind (cs ++ opening :: us) (by rw [hclosing]; decide)
      rwa [List.append_assoc] at hlast
  | @get os _ dot _ _ _ hname _ =>
      have hlast := endsOperand_of_kind (os ++ [dot]) (by rw [hname]; decide)
      rwa [List.append_assoc] at hlast
  | @grouping opening _ us _ _ _ hclosing _ =>
      exact endsOperand_of_kind (opening :: us) (by rw [hclosing]; decide)
  | literal hk _ =>
      exact endsOperand_of_kind [] (List.mem_cons_of_mem _ (List.mem_cons_of_mem _ hk))
  | var hk => exact endsOperand_of_kind [] (by rw [hk]; decide)

/-- Arguments that are listed end with a comma. -/
theorem Listed.endsOperand_append {count : Nat} (h : Listed room count ts) :
    EndsOperand (ts ++ us) ↔ EndsOperand us := by
  induction h with
  | nil => exact Iff.rfl
  | cons _ hcomma _ ih =>
      rw [List.append_assoc, List.cons_append,
        endsOperand_append_cons _ _ (by rw [hcomma]; decide), ih]

theorem Rule.operator_not_end {kind : TokenKind} (h : kind ∈ rule.operators) :
    kind ∉ TokenKind.ends := by
  cases rule <;> revert h <;> cases kind <;> decide

theorem TokenKind.sign_not_end {kind : TokenKind} (h : kind ∈ signs) : kind ∉ ends := by
  revert h
  cases kind <;> decide

/-! ## The token that opens the level -/

/--
`Opener t room rule us opening line`: all of `room` levels are open behind the tokens `us`, and the
token `opening` behind them opens one more. The line is that of this token, or that of the token `t`
behind it if it opens an argument list.
-/
structure Opener (t : Token) (room : Nat) (rule : Rule) (us : List Token) (opening : Token)
    (line : Nat) : Prop where
  kind : opening.kind ∈ TokenKind.openers
  /-- The levels in front of the token. -/
  begun : Begun room room rule us
  arguments : OpensArguments us opening → line = t.line
  others : ¬ OpensArguments us opening → line = opening.line

/-- It still does so in a part of something longer, which has more levels open. -/
theorem Opener.within {n : Nat} {next : Rule} {ws : List Token}
    (h : Opener t n next us opening line) (hends : EndsOperand ws ↔ EndsOperand us)
    (hb : Begun room room rule ws) : Opener t room rule ws opening line :=
  ⟨h.kind, hb, fun ⟨hk, hw⟩ => h.arguments ⟨hk, hends.mp hw⟩,
    fun hn => h.others fun ⟨hk, hu⟩ => hn ⟨hk, hends.mpr hu⟩⟩

/-- **The last token that has been passed opens the level that is one too many**, by induction on
the place where that is found. What surrounds the place leaves alone what the token follows. -/
theorem Fault.opener (h : Fault t room k rule ts (.tooDeep line)) :
    ∃ us opening, ts = us ++ [opening] ∧ Opener t room rule us opening line := by
  generalize herror : SyntaxError.tooDeep line = error at h
  induction h with
  | @signTooDeep operator hk =>
      cases herror
      have hkind : operator.kind ≠ .leftParen := fun hc => absurd (hc ▸ hk) (by decide)
      exact ⟨[], operator, rfl, List.mem_cons_of_mem _ (List.mem_cons_of_mem _ hk), .nothing,
        fun h => absurd h.1 hkind, fun _ => rfl⟩
  | @groupingTooDeep opening hk =>
      cases herror
      have hkind : opening.kind ∈ TokenKind.openers := by rw [hk]; decide
      exact ⟨[], opening, rfl, hkind, .nothing, fun h => absurd h.2 nofun, fun _ => rfl⟩
  | @argumentsTooDeep cs _ opening hc hk =>
      cases herror
      have hkind : opening.kind ∈ TokenKind.openers := by rw [hk]; decide
      exact ⟨cs, opening, rfl, hkind, .whole hc, fun _ => rfl,
        fun h => absurd ⟨hk, hc.derives.endsOperand⟩ h⟩
  | @valueTooDeep ls _ equals hl hk =>
      cases herror
      have hkind : equals.kind ∈ TokenKind.openers := by rw [hk]; decide
      have hne : equals.kind ≠ .leftParen := by rw [hk]; decide
      exact ⟨ls, equals, rfl, hkind, .tighter rfl (.whole hl), fun h => absurd h.1 hne,
        fun _ => rfl⟩
  | tighter ht _ _ ih =>
      obtain ⟨us, opening, rfl, ho⟩ := ih herror
      exact ⟨us, opening, rfl, ho.within Iff.rfl (.tighter ht ho.begun)⟩
  | operand hl hk ht _ ih =>
      obtain ⟨us, opening, rfl, ho⟩ := ih herror
      exact ⟨_, opening, by simp,
        ho.within (endsOperand_append_cons _ us (Rule.operator_not_end hk))
          (.operand hl hk ht ho.begun)⟩
  | sign hk _ ih =>
      obtain ⟨us, opening, rfl, ho⟩ := ih herror
      have hends := endsOperand_append_cons [] us (TokenKind.sign_not_end hk)
      exact ⟨_, opening, rfl, ho.within hends (.sign hk ho.begun)⟩
  | @grouping _ _ _ paren _ hk _ ih =>
      obtain ⟨us, opening, rfl, ho⟩ := ih herror
      have hparen : paren.kind ∉ TokenKind.ends := by rw [hk]; decide
      exact ⟨_, opening, rfl, ho.within (endsOperand_append_cons [] us hparen)
        (.grouping hk ho.begun)⟩
  | @argument _ _ _ cs ls _ _ paren _ hc hk hl hcount _ _ ih =>
      obtain ⟨us, opening, rfl, ho⟩ := ih herror
      have hparen : paren.kind ∉ TokenKind.ends := by rw [hk]; decide
      have hends : EndsOperand (cs ++ paren :: (ls ++ us)) ↔ EndsOperand us :=
        (endsOperand_append_cons cs _ hparen).trans hl.endsOperand_append
      exact ⟨_, opening, by simp, ho.within hends
        (.argument hc hk hl (Nat.le_of_lt hcount) ho.begun)⟩
  | @value _ _ ls _ _ equals _ hl hk _ ih =>
      obtain ⟨us, opening, rfl, ho⟩ := ih herror
      have hequals : equals.kind ∉ TokenKind.ends := by rw [hk]; decide
      exact ⟨_, opening, by simp,
        ho.within (endsOperand_append_cons ls us hequals) (.value hl hk ho.begun)⟩
  -- the other mistakes are not about a level
  | _ => cases herror

end

/-! ## Texts -/

/-- What stands in front of a parser is the token that it looks at, or the end of the text. -/
theorem Parser.Ready.next_pending {p : Parser} (h : p.Ready) :
    (Scan.mk p.pending p.ahead.ending).next.1 = .ok p.current := by
  by_cases hend : p.current.kind = .endOfText
  · obtain ⟨line, hcurrent, hahead⟩ := h.at_end hend
    rw [pending, if_pos hend, hahead, hcurrent]
    rfl
  · rw [pending, if_neg hend]
    rfl

/--
**A level too many is reported on the line of its opener, except for arguments.**

If a text does not parse because it has too many levels, then all levels are open behind some of its
tokens, and the next one is a sign, an `=` or a parenthesis that opens one more. The error is on the
line of this token. Only if it is a parenthesis that directly follows an operand, so that the
arguments of a call are to begin, the error is on the line of what is behind it: a token, or the end
of the text.
-/
theorem tooDeep_is_on_line_of_opener {text : String} {line : Nat}
    (h : parse text = .error (.tooDeep line)) :
    ∃ us opening later next, (Scan.ofText text).tokens = us ++ opening :: later
      ∧ (Scan.mk later (Scan.ofText text).ending).next.1 = .ok next
      ∧ opening.kind ∈ TokenKind.openers
      ∧ Begun maxNesting maxNesting .assignment us
      ∧ Begun (maxNesting + 1) (maxNesting + 1) .assignment (us ++ [opening])
      ∧ (OpensArguments us opening → line = next.line)
      ∧ (¬ OpensArguments us opening → line = opening.line) := by
  rcases parse_eq_error.mp h with hstart | ⟨p, p', hstart, hwhole⟩
  · obtain ⟨_, heq, _⟩ := Parser.start_eq_error hstart
    cases heq
  obtain ⟨hpending, hending, hdepth, hready⟩ := Parser.start_eq_ok hstart
  rcases Parse.whole_fails hready hwhole with ⟨k, ts, herrs⟩ | ⟨_, _, _, _, _, _, heq⟩
  · rw [hdepth] at herrs
    have hbegun := herrs.fault.begun
    have hfull : k = maxNesting := herrs.fault.full rfl
    have hsame : p'.ahead.ending = p.ahead.ending := herrs.ending
    obtain ⟨us, opening, rfl, ho⟩ := herrs.fault.opener
    refine ⟨us, opening, p'.pending, p'.current, ?_, ?_, ho.kind, ho.begun, ?_, ho.arguments,
      ho.others⟩
    · rw [← hpending, herrs.pending, List.append_assoc]
      rfl
    · rw [← hending, ← hsame]
      exact herrs.ready.next_pending
    · rw [hfull] at hbegun
      exact hbegun
  · cases heq

set_option maxRecDepth 10000 in
/-- As many signs as there may be levels, and a grouping on the next line. -/
theorem tooDeep_is_on_line_of_grouping :
    let text := "!!!!!!!!!!!!!!!!!!!!!!!!!!!!!!!!!!!!!!!!!!!!!!!!\n(\na)"
    parse text = .error (.tooDeep 2)
      ∧ ∃ us opening later next, (Scan.ofText text).tokens = us ++ opening :: later
        ∧ (Scan.mk later (Scan.ofText text).ending).next.1 = .ok next
        ∧ opening.kind ∈ TokenKind.openers
        ∧ Begun maxNesting maxNesting .assignment us
        ∧ Begun (maxNesting + 1) (maxNesting + 1) .assignment (us ++ [opening])
        ∧ (OpensArguments us opening → 2 = next.line)
        ∧ (¬ OpensArguments us opening → 2 = opening.line) := by
  let bang : Token := ⟨.bang, "!", none, 1⟩
  have hscan : Scan.ofText "!!!!!!!!!!!!!!!!!!!!!!!!!!!!!!!!!!!!!!!!!!!!!!!!\n(\na)"
      = ⟨bang :: (List.replicate 47 bang ++ [⟨.leftParen, "(", none, 2⟩,
        ⟨.identifier, "a", none, 3⟩, ⟨.rightParen, ")", none, 3⟩]), .finished 3⟩ := rfl
  have hparse := parse_error_of_scan hscan rfl
  exact ⟨hparse, tooDeep_is_on_line_of_opener hparse⟩

/-- Each sign opens a level in front of what has begun. -/
theorem Begun.signs {sign : Token} (hk : sign.kind ∈ TokenKind.signs)
    (h : Begun room k .unary ts) (count : Nat) :
    Begun (room + count) (k + count) .unary (List.replicate count sign ++ ts) := by
  induction count with
  | zero => exact h
  | succ count ih => exact .sign hk ih

/-- An operand of a sign is an expression. -/
theorem Begun.assignment_of_unary (h : Begun room k .unary ts) : Begun room k .assignment ts := by
  have hterm : Begun room k .term ts := .tighter rfl (.tighter rfl h)
  have hequality : Begun room k .equality ts := .tighter rfl (.tighter rfl hterm)
  exact .tighter rfl (.tighter rfl (.tighter rfl hequality))

set_option maxRecDepth 10000 in
/-- As many signs as there may be levels, and a call behind them. Its parenthesis opens one more
level on the first line, but the error is on the second one, where its argument is. -/
theorem tooDeep_is_below_opener_of_arguments :
    let bang : Token := ⟨.bang, "!", none, 1⟩
    let name (lexeme : String) (line : Nat) : Token := ⟨.identifier, lexeme, none, line⟩
    let opening : Token := ⟨.leftParen, "(", none, 1⟩
    let us := List.replicate maxNesting bang ++ [name "f" 1]
    let text := "!!!!!!!!!!!!!!!!!!!!!!!!!!!!!!!!!!!!!!!!!!!!!!!!f(\na)"
    parse text = .error (.tooDeep 2)
      ∧ (Scan.ofText text).tokens = us ++ [opening, name "a" 2, ⟨.rightParen, ")", none, 2⟩]
      ∧ Begun maxNesting maxNesting .assignment us
      ∧ Begun (maxNesting + 1) (maxNesting + 1) .assignment (us ++ [opening])
      ∧ opening.line ≠ 2 := by
  intro bang name opening us
  have hscan : Scan.ofText "!!!!!!!!!!!!!!!!!!!!!!!!!!!!!!!!!!!!!!!!!!!!!!!!f(\na)"
      = ⟨bang :: (List.replicate 47 bang ++ [name "f" 1, opening, name "a" 2,
        ⟨.rightParen, ")", none, 2⟩]), .finished 2⟩ := rfl
  have hsign : bang.kind ∈ TokenKind.signs := by decide
  have hf : ∀ room, Phrase .call room [name "f" 1] (.var (name "f" 1)) := fun room =>
    Parse.phrase_tighter rfl ⟨.var rfl, Expr.fits_var⟩
  have hunary : ∀ {room k ts}, Begun room k .call ts → Begun room k .unary ts := .tighter rfl
  have hname := (hunary (.whole (hf 0))).signs hsign maxNesting
  have hcall : Begun 1 1 .call ([name "f" 1] ++ opening :: ([] ++ [])) :=
    .argument (hf 1) rfl .nil (Nat.zero_le _) .nothing
  have hopen := (hunary hcall).signs hsign maxNesting
  refine ⟨parse_error_of_scan hscan rfl, ?_, ?_, ?_, by decide⟩
  · show (Scan.ofText "!!!!!!!!!!!!!!!!!!!!!!!!!!!!!!!!!!!!!!!!!!!!!!!!f(\na)").tokens = _
    rw [hscan]
    rfl
  · rw [Nat.zero_add] at hname
    exact hname.assignment_of_unary
  · rw [Nat.add_comm] at hopen
    rw [List.append_assoc]
    exact hopen.assignment_of_unary

end Lox
