import Lox.Proofs.Lexed
import Lox.Proofs.MovedRuns
import Lox.Proofs.ParserSteps

/-!
# Layout makes no difference

Blanks, line ends and comments between the tokens of a text only change the lines on which the
tokens stand. So two texts with the same tokens on any lines are parsed, printed, resolved and
evaluated alike, up to the lines of what is reported. Everything is said by `Moved` already; here
any line may stand for any other.
-/

namespace Lox

/-- What a token says, wherever it stands. -/
def Token.content (t : Token) : TokenKind × String × Option Value := (t.kind, t.lexeme, t.literal)

/-- Any line may stand for any other. -/
def anyLine : Nat → Nat → Prop := fun _ _ => True

theorem Token.moved_of_content {t t' : Token} (h : t.content = t'.content) :
    t.Moved anyLine t' := by
  obtain ⟨hkind, h⟩ := Prod.mk.inj h
  obtain ⟨hlexeme, hliteral⟩ := Prod.mk.inj h
  exact ⟨hkind, hlexeme, hliteral, trivial⟩

/-- Tokens that say the same are the same on other lines. -/
theorem Token.moved_of_contents {ts ts' : List Token}
    (h : ts.map Token.content = ts'.map Token.content) :
    List.Forall₂ (Token.Moved anyLine) ts ts' := by
  have hcontents := List.forall₂_eq_eq_eq.symm ▸ h
  rw [List.forall₂_map_left_iff, List.forall₂_map_right_iff] at hcontents
  exact hcontents.imp fun _ _ => Token.moved_of_content

/-- So are the scans of two texts that say the same. -/
theorem Scan.moved_of_contents {text text' : String} {ts ts' : List Token}
    (h : tokenize text = .ok ts) (h' : tokenize text' = .ok ts')
    (hsame : ts.map Token.content = ts'.map Token.content) :
    (Scan.ofText text).Moved anyLine (Scan.ofText text') := by
  obtain ⟨tokens, line, hscan, rfl⟩ := tokenize_eq_ok.mp h
  obtain ⟨tokens', line', hscan', rfl⟩ := tokenize_eq_ok.mp h'
  rw [List.map_append, List.map_append] at hsame
  rw [hscan, hscan']
  exact ⟨Token.moved_of_contents (List.append_inj_left' hsame rfl), .finished trivial⟩

/-- A host may give any error, if lines do not matter. -/
theorem Host.unmoved_anyLine (host : Host) : host.Unmoved anyLine := by
  intro _ _ _ _ error _ _
  cases error <;> constructor <;> trivial

/-- The line of a call of a literal is a line like any other. -/
theorem RaisedMoved.moved {nodes : List Expr} {error error' : RuntimeError}
    (h : RaisedMoved anyLine nodes error error') : error.Moved anyLine error' := by
  rcases h with h | ⟨rfl, callee, arguments, v, _, _, rfl⟩
  · exact h
  · exact .notCallable trivial

/--
**How a text is laid out makes no difference.**

Two texts have tokens of the same kinds, with the same lexemes and literals in the same order. Then
both parse, or neither does, and they come to the same expression or the same error but for lines.
The expressions are printed as the same text. A resolver reports the same uses of the same variables
for them, or the same undeclared name. And from any session, they evaluate to the same object or the
same error, lines apart, and leave the same session.
-/
theorem layout_makes_no_difference {text text' : String} {ts ts' : List Token}
    (h : tokenize text = .ok ts) (h' : tokenize text' = .ok ts')
    (hsame : ts.map Token.content = ts'.map Token.content) :
    Step.SameOutcome (SyntaxError.Moved anyLine) (Expr.Moved anyLine) (parse text) (parse text')
      ∧ ∀ e e', parse text = .ok e → parse text' = .ok e' →
        e.render = e'.render
        ∧ (∀ r : Resolver,
            Step.SameOutcome (Undeclared.Moved anyLine) Eq (r.resolve e).1 (r.resolve e').1
              ∧ RecordedMoved anyLine r.references (r.resolve e).2.references
                  (r.resolve e').2.references)
        ∧ ∀ s : Session,
            Step.SameOutcome (RuntimeError.Moved anyLine) Eq (s.evaluate e).1 (s.evaluate e').1
              ∧ (s.evaluate e).2 = (s.evaluate e').2 := by
  have hparse := parse_moved (Scan.moved_of_contents h h' hsame)
  refine ⟨hparse, fun e e' he he' => ?_⟩
  rw [he, he'] at hparse
  cases hparse with
  | ok hmoved =>
      refine ⟨?_, fun r => r.resolve_moved hmoved, fun s => ?_⟩
      · exact hmoved.render_eq (fun _ _ ht => ht.lexeme) (fun _ _ hv => congrArg Value.text hv)
      · obtain ⟨hresult, hsession⟩ := s.evaluate_moved s.host.unmoved_anyLine hmoved
        exact ⟨hresult.imp (fun _ _ => RaisedMoved.moved) fun _ _ => id, hsession⟩

/-- A call on one line, and the same call below a comment and with its argument on a line of its
own. -/
theorem layout_makes_no_difference_call :
    let name (lexeme : String) (line : Nat) : Token := ⟨.identifier, lexeme, none, line⟩
    let e : Expr := .call (.var (name "f" 1)) [.var (name "a" 1)]
    let e' : Expr := .call (.var (name "f" 2)) [.var (name "a" 3)]
    ∃ ts ts', tokenize "f(a)" = .ok ts ∧ tokenize "// one\nf(\na )" = .ok ts'
      ∧ ts.map Token.content = ts'.map Token.content
      ∧ parse "f(a)" = .ok e ∧ parse "// one\nf(\na )" = .ok e'
      ∧ e.Moved anyLine e' ∧ e.render = e'.render
      ∧ Step.SameOutcome (RuntimeError.Moved anyLine) Eq (Session.empty.evaluate e).1
          (Session.empty.evaluate e').1
      ∧ (Session.empty.evaluate e').1 = .error (.undefinedVariable "f" 2) := by
  intro name e e'
  have hscan : Scan.ofText "f(a)" = ⟨[name "f" 1, ⟨.leftParen, "(", none, 1⟩, name "a" 1,
      ⟨.rightParen, ")", none, 1⟩], .finished 1⟩ := rfl
  have hscan' : Scan.ofText "// one\nf(\na )" = ⟨[name "f" 2, ⟨.leftParen, "(", none, 2⟩,
      name "a" 3, ⟨.rightParen, ")", none, 3⟩], .finished 3⟩ := rfl
  have hparse : parse "f(a)" = .ok e := parse_of_scan hscan rfl
  have hparse' : parse "// one\nf(\na )" = .ok e' := parse_of_scan hscan' rfl
  have htokens := tokenize_eq_ok.mpr ⟨_, _, hscan, rfl⟩
  have htokens' := tokenize_eq_ok.mpr ⟨_, _, hscan', rfl⟩
  obtain ⟨hmoved, hall⟩ := layout_makes_no_difference htokens htokens' rfl
  obtain ⟨hrender, _, hevaluate⟩ := hall e e' hparse hparse'
  rw [hparse, hparse'] at hmoved
  cases hmoved with
  | ok hmoved =>
      exact ⟨_, _, htokens, htokens', rfl, hparse, hparse', hmoved, hrender,
        (hevaluate Session.empty).1, rfl⟩

end Lox
