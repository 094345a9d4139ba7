import Lox.Proofs.MovedRuns
import Lox.Proofs.ParserSteps
import Lox.Proofs.Reading

/-!
# The lines of errors

An error names a line so that somebody can look there. Is it a line of the text? A scan only makes
tokens and errors on lines of the text, so the text is moved to itself by the relation of each of
its lines to itself, and everything that is made of the text is too. The functions of the host are
not made of it: they are taken not to know of lines.

One kind of error is on no line. A call has the line of its callee, and a literal has none, so the
error of a call of a literal says 0. It is about what is called and not about the arguments: a
literal is no function, and where a function is called, its expression has a line.
-/

namespace Lox

/-- A text has one line more than it has line ends. -/
def IsLineOf (text : String) (line : Nat) : Prop := 1 ≤ line ∧ line ≤ 1 + text.toList.count '\n'

/-- The lines of a text, each related to itself. -/
def sameLine (text : String) (line line' : Nat) : Prop := line = line' ∧ IsLineOf text line

/-- The functions of a host fail with texts of their own only. -/
def Host.FailsInText (host : Host) : Prop :=
  ∀ moment number arguments heap error heap',
    host.behaviour moment number arguments heap = .error error heap' → ∃ text, error = .native text

theorem Host.FailsInText.unmoved {host : Host} (h : host.FailsInText) (L : Nat → Nat → Prop) :
    host.Unmoved L := by
  intro moment number arguments heap error heap' herror
  obtain ⟨text, rfl⟩ := h moment number arguments heap error heap' herror
  exact .native

/-! ## The lines of a scan -/

namespace Cursor

variable {c c' : Cursor}

/-- A token is read on a line between the two places. -/
theorem line_of_token {t : Token} (h : c.next = (.ok t, c')) :
    c.line ≤ t.line ∧ t.line ≤ c'.line := by
  cases reads_of_next h with
  | @finished gap _ _ hline _ => exact ⟨by rw [hline]; exact Nat.le_add_right _ _, Nat.le_refl _⟩
  | @token gap later _ _ hline _ _ _ =>
      exact ⟨by rw [hline]; exact Nat.le_add_right _ _, Nat.le_add_right _ _⟩

/-- And so is an error. -/
theorem line_of_error {error : LexError} (h : c.next = (.error error, c')) :
    c.line ≤ error.line ∧ error.line ≤ c'.line := by
  cases reads_of_next h with
  | @unterminated gap later line _ hline _ _ =>
      exact ⟨by rw [LexError.line, hline]; exact Nat.le_add_right _ _, Nat.le_add_right _ _⟩
  | @unexpected gap later char line _ hline _ _ _ =>
      exact ⟨by rw [LexError.line, hline]; exact Nat.le_add_right _ _, Nat.le_refl _⟩

end Cursor

/-- **A scan stays on the lines that are left**: it is moved to itself by any relation of these
lines to themselves. -/
theorem Scan.moved_self {L : Nat → Nat → Prop} {first last : Nat}
    (hL : ∀ line, first ≤ line → line ≤ last → L line line) (c : Cursor) :
    first ≤ c.line → c.line + c.rest.count '\n' ≤ last → (ofCursor c).Moved L (ofCursor c) := by
  induction c using ofCursor_induction with
  | finished c line hnext hscan =>
    intro hfirst hlast
    have hlines := Cursor.lines_of_next hnext
    obtain ⟨habove, _⟩ := Cursor.line_of_token hnext
    dsimp only [Token.atEnd, List.count_nil] at habove hlines
    rw [hscan]
    exact ⟨.nil, .finished (hL line (by omega) (by omega))⟩
  | token c t c' hnext _ hscan ih =>
    intro hfirst hlast
    have hlines := Cursor.lines_of_next hnext
    obtain ⟨habove, hbelow⟩ := Cursor.line_of_token hnext
    have hlater := ih (by omega) (by omega)
    rw [hscan]
    exact ⟨.cons ⟨rfl, rfl, rfl, hL t.line (by omega) (by omega)⟩ hlater.tokens, hlater.ending⟩
  | unexpected c char line c' hnext hscan =>
    intro hfirst hlast
    have hlines := Cursor.lines_of_next hnext
    obtain ⟨habove, hbelow⟩ := Cursor.line_of_error hnext
    dsimp only [LexError.line] at habove hbelow
    rw [hscan]
    exact ⟨.nil, .unexpected (hL line (by omega) (by omega))⟩
  | unterminated c line last' hnext hscan =>
    intro hfirst hlast
    have hlines := Cursor.lines_of_next hnext
    obtain ⟨habove, hbelow⟩ := Cursor.line_of_error hnext
    dsimp only [LexError.line, List.count_nil] at habove hbelow hlines
    rw [hscan]
    exact ⟨.nil, .unterminated (hL line (by omega) (by omega)) (hL last' (by omega) (by omega))⟩

/-- The scan of a text stays on its lines. -/
theorem Scan.ofText_sameLine (text : String) :
    (ofText text).Moved (sameLine text) (ofText text) :=
  moved_self (fun _ hfirst hlast => ⟨rfl, hfirst, hlast⟩) (Cursor.start text) (Nat.le_refl 1)
    (Nat.le_refl _)

/-! ## What is made of the text -/

variable {text : String} {e : Expr}

theorem line_of_parse_error {error : SyntaxError} (h : parse text = .error error) :
    IsLineOf text error.line := by
  have hmoved := parse_moved (Scan.ofText_sameLine text)
  rw [h] at hmoved
  cases hmoved with
  | error herror => exact herror.line.2

theorem parse_sameLine (h : parse text = .ok e) : e.Moved (sameLine text) e := by
  have hmoved := parse_moved (Scan.ofText_sameLine text)
  rw [h] at hmoved
  cases hmoved with
  | ok he => exact he

theorem Resolver.line_of_error (r : Resolver) (he : e.Moved (sameLine text) e)
    {error : Undeclared} (h : (r.resolve e).1 = .error error) : IsLineOf text error.line := by
  obtain ⟨hmoved, _⟩ := r.resolve_moved he
  rw [h] at hmoved
  cases hmoved with
  | error herror => exact herror.line.2

theorem RuntimeError.Moved.line {error : RuntimeError} (h : error.Moved (sameLine text) error)
    {line : Nat} (hline : error.line? = some line) : IsLineOf text line := by
  cases h with
  | native => cases hline
  | _ hL =>
      cases hline
      exact hL.2

theorem Session.line_of_error (s : Session) (hhost : s.host.FailsInText)
    (he : e.Moved (sameLine text) e) {error : RuntimeError} (h : (s.evaluate e).1 = .error error) :
    (∀ line, error.line? = some line → IsLineOf text line) ∨ CallsLiteral e.nodes error := by
  obtain ⟨hmoved, _⟩ := s.evaluate_moved (hhost.unmoved _) he
  rw [h] at hmoved
  cases hmoved with
  | error herror =>
      rcases herror with herror | ⟨_, hcalls⟩
      · exact Or.inl fun line hline => herror.line hline
      · exact Or.inr hcalls

/-! ## Callees -/

/-- A callee that comes to an object has a line of the text, unless it is a literal. -/
theorem line_of_callee {callee : Expr} (he : callee.Moved (sameLine text) callee)
    (hconstant : callee.constant? = none) {host : Host} {function : Object}
    (hgives : Step.Gives (Eval.expr host callee) function) :
    ∃ line, callee.line? = some line ∧ IsLineOf text line := by
  cases hline : callee.line? with
  | none =>
      obtain ⟨v, hv, _⟩ := Eval.value_of_no_line hline hgives
      rw [hconstant] at hv
      cases hv
  | some line =>
      have hmoved := Expr.line?_moved he
      rw [hline] at hmoved
      cases hmoved with
      | some hL => exact ⟨line, rfl, hL.2⟩

/-- A literal has no line, in parentheses or not. -/
theorem Expr.line?_of_constant? {e : Expr} {v : Value} (h : e.constant? = some v) :
    e.line? = none := by
  fun_induction Expr.constant? e with
  | case1 value => rfl
  | case2 inner ih => exact ih h
  | case3 => cases h

/-- A call of a literal evaluates its arguments, and then fails on line 0. -/
theorem Eval.call_of_constant {host : Host} {callee : Expr} {v : Value}
    (hconstant : callee.constant? = some v) {arguments : List Expr} {objects : List Object}
    {m m' : Memory} (h : exprs host arguments m = .ok objects m') :
    expr host (.call callee arguments) m = .error (.notCallable v.typeName 0) m' := by
  rw [expr, Step.bind_of_ok (expr_of_constant? hconstant m), Step.bind_of_ok h,
    Expr.line?_of_constant? hconstant]
  rfl

/--
**The line of an error is a line of the text.**

Whatever fails because of a text names a line of it, or none: its parse, a resolver that has an
undeclared name in the expression, and an evaluation in any session whose host fails in text only.
The exception is a call of a literal, in parentheses or not, which fails with line 0 whenever its
arguments have objects. No other callee does that: one that comes to an object is on a line of the
text. So a call with too many or too few arguments always names a line of the text.
-/
theorem errors_are_on_lines_of_text (text : String) :
    (∀ error, parse text = .error error → IsLineOf text error.line)
      ∧ ∀ e, parse text = .ok e →
        (∀ (r : Resolver) error, (r.resolve e).1 = .error error → IsLineOf text error.line)
        ∧ (∀ s : Session, s.host.FailsInText → ∀ error, (s.evaluate e).1 = .error error →
            ((∀ line, error.line? = some line → IsLineOf text line) ∨ CallsLiteral e.nodes error)
            ∧ ∀ expected given line, error = .arityMismatch expected given line →
              IsLineOf text line)
        ∧ ∀ callee arguments, .call callee arguments ∈ e.nodes →
            (∀ v, callee.constant? = some v → ∀ host m objects m',
              Eval.exprs host arguments m = .ok objects m' →
              Eval.expr host (.call callee arguments) m = .error (.notCallable v.typeName 0) m')
            ∧ (callee.constant? = none → ∀ host m function m',
              Eval.expr host callee m = .ok function m' →
              ∃ line, callee.line? = some line ∧ IsLineOf text line) := by
  refine ⟨fun error h => line_of_parse_error h, fun e h => ?_⟩
  have he := parse_sameLine h
  refine ⟨fun r error h => r.line_of_error he h, fun s hhost error h => ?_, ?_⟩
  · have hlines := s.line_of_error hhost he h
    refine ⟨hlines, ?_⟩
    rintro expected given line rfl
    rcases hlines with hlines | ⟨callee, arguments, v, _, _, hne⟩
    · exact hlines line rfl
    · cases hne
  · intro callee arguments hnode
    refine ⟨fun v hv host m objects m' harguments => Eval.call_of_constant hv harguments, ?_⟩
    intro hconstant host m function m' hcallee
    have hcall := he.node hnode
    cases hcall with
    | call hself _ => exact line_of_callee hself hconstant ⟨m, m', hcallee⟩

/-- Of the functions that are always there only `clock` fails, with what is wrong with the clock. -/
theorem Session.start_failsInText (clock : Clock) : (Session.start clock).host.FailsInText := by
  refine Session.start_forall (fun behaviour => ∀ arguments heap error heap',
    behaviour arguments heap = .error error heap' → ∃ text, error = .native text) ?_ nofun nofun
  intro moment arguments heap error heap' h
  cases hshows : clock.shows moment with
  | ok time =>
      rw [Host.clock_of_ok hshows] at h
      cases h
  | error problem =>
      rw [Host.clock_of_error hshows] at h
      cases h
      exact ⟨_, rfl⟩

/-- A function gets one argument too many on the second line, and a literal is called. -/
theorem errors_are_on_lines_of_text_call :
    let clock : Token := ⟨.identifier, "clock", none, 2⟩
    let e : Expr := .call (.var clock) [.call (.grouping (.literal .nil)) []]
    let e' : Expr := .call (.var clock) [.grouping (.literal .nil)]
    parse "\nclock((nil)())" = .ok e ∧ parse "\nclock((nil))" = .ok e'
      ∧ ((Session.start (.stopped 0)).evaluate e).1 = .error (.notCallable "nil" 0)
      ∧ CallsLiteral e.nodes (.notCallable "nil" 0)
      ∧ ((Session.start (.stopped 0)).evaluate e').1 = .error (.arityMismatch 0 1 2)
      ∧ IsLineOf "\nclock((nil))" 2 := by
  intro clock e e'
  let token (kind : TokenKind) (lexeme : String) : Token := ⟨kind, lexeme, none, 2⟩
  let word : Token := ⟨.nilWord, "nil", some .nil, 2⟩
  let opened : Token := token .leftParen "("
  let closed : Token := token .rightParen ")"
  have hscan : Scan.ofText "\nclock((nil)())" =
      ⟨[clock, opened, opened, word, closed, opened, closed, closed], .finished 2⟩ := rfl
  have hscan' : Scan.ofText "\nclock((nil))" =
      ⟨[clock, opened, opened, word, closed, closed], .finished 2⟩ := rfl
  have hparse : parse "\nclock((nil)())" = .ok e := parse_of_scan hscan rfl
  have hparse' : parse "\nclock((nil))" = .ok e' := parse_of_scan hscan' rfl
  have herror : ((Session.start (.stopped 0)).evaluate e).1 = .error (.notCallable "nil" 0) := rfl
  have herror' : ((Session.start (.stopped 0)).evaluate e').1 = .error (.arityMismatch 0 1 2) := rfl
  have hhost := Session.start_failsInText (.stopped 0)
  obtain ⟨_, hlines, _⟩ := (errors_are_on_lines_of_text "\nclock((nil)())").2 e hparse
  obtain ⟨_, hlines', _⟩ := (errors_are_on_lines_of_text "\nclock((nil))").2 e' hparse'
  refine ⟨hparse, hparse', herror, ?_, herror', (hlines' _ hhost _ herror').2 0 1 2 rfl⟩
  rcases (hlines _ hhost _ herror).1 with hline | hcalls
  · exact absurd (hline 0 rfl).1 (by decide)
  · exact hcalls

end Lox
