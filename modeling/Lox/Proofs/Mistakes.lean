import Lox.Proofs.Beginnings
import Lox.Proofs.ParserComplete

/-!
# A mistake is found whatever follows

A parser looks at no token behind the one that it has come to. So what it makes of a mistake
is known from the tokens up to that place: with anything else behind them the parser fails
in the same way.

The proof leads a parser to the place, along the phrases that are complete in front of it. What
reads them is known (`derives_accepts`): the parser of a rule, or the loop of a rule that has come
that far. The last step of such a loop is the one that fails.
-/

namespace Lox

open Lox.Parser (facing)

namespace Parse

variable {rule next : Rule} {room line depth : Nat} {inner : Option Level} {p p' : Parser}
  {t : Token} {ts us rest : List Token} {e : Expr} {error : SyntaxError}

/-! ## Single steps that fail -/

theorem expect_error {expected : Expectation} (h : p.current.kind ≠ expected.kind) :
    expect expected p = .error (.unexpectedToken expected p.current) p := by
  show (if _ then _ else _ : Parse Token) p = _
  rw [if_neg h]
  rfl

theorem primary_error (h : p.current.kind ∉ Rule.starts .primary) :
    primary inner p = .error (.expectedExpression p.current) p := by
  have hget : (get : Parse Parser) p = .ok p p := rfl
  refine (Step.bind_of_ok hget).trans ?_
  cases hk : p.current.kind
  all_goals first | rfl | exact absurd (hk ▸ h) (by decide)

/-- A loop that has come behind a phrase and then fails. -/
theorem parser_error_of_reaches (ht : rule.tighter? = some next) (hr : rule.repeats = true)
    (h : Reaches rule ts e) (he : e.Fits room) (hs : t.kind ∉ next.continuations)
    (hx : rule.extend? (inside room) next e (facing (t :: rest) line depth) = .error error p') :
    rule.parser (inside room) (facing (ts ++ t :: rest) line depth) = .error error p' := by
  obtain ⟨first, us, n, hn, hfirst, hgrows⟩ :=
    h next room line depth (t :: rest) ht he (stops_facing hs)
  rw [Rule.parser_eq_grow ht hr, Step.bind_of_ok hfirst]
  -- one turn is left for the step that fails, as there is a token for it
  have hlen : n < ((facing (us ++ t :: rest) line depth).current ::
      (facing (us ++ t :: rest) line depth).ahead.tokens).length := by
    show n < (us ++ t :: rest).tail.length + 1
    rw [List.length_tail, List.length_append, List.length_cons]
    omega
  show growOver _ _ first _ = _
  rw [growOver_of_grows hgrows (Nat.le_of_lt hlen), List.drop_eq_getElem_cons hlen]
  exact Step.bind_of_error hx

/-- Arguments fail behind those that are listed in front of them. -/
theorem argumentsUpTo_error {n count : Nat} (h : Listed n count us) (left : Nat)
    (herror : argumentsUpTo (assignment (inside n)) left (facing rest line depth)
      = .error error p') :
    argumentsUpTo (assignment (inside n)) (count + left) (facing (us ++ rest) line depth)
      = .error error p' := by
  induction h with
  | nil => rwa [Nat.zero_add]
  | @cons count ts us e comma he hcomma _ ih =>
    have hstop : (facing (comma :: (us ++ rest)) line depth).Stops .assignment :=
      stops_facing (by simp [hcomma, Rule.continuations])
    have hfirst := (derives_accepts he.derives).1 n line depth _ he.fits hstop
    have hpass : accept? [.comma] (facing (comma :: (us ++ rest)) line depth)
        = .ok (some comma) (facing (us ++ rest) line depth) :=
      accept?_facing (List.mem_singleton.mpr hcomma)
    rw [List.append_assoc, Nat.add_right_comm]
    refine (Step.bind_of_ok hfirst).trans ((Step.bind_of_ok hpass).trans ?_)
    exact Step.bind_of_error ih

/-! ## Parts that fail -/

/-- Behind its parenthesis a grouping is a part one level further in. -/
theorem primary_paren {opening : Token} (ho : opening.kind = .leftParen) :
    primary inner (facing (opening :: ts) line depth)
      = (nested inner opening.line (·.expression) >>= fun e =>
          expect .closedGrouping >>= fun _ => pure (.grouping e) : Parse Expr)
        (facing ts line depth) := by
  have hget : (get : Parse Parser) (facing (opening :: ts) line depth)
      = .ok (facing (opening :: ts) line depth) (facing (opening :: ts) line depth) := rfl
  have hcurrent : (facing (opening :: ts) line depth).current = opening := rfl
  refine (Step.bind_of_ok hget).trans ?_
  rw [hcurrent, ho]
  exact Step.bind_of_ok advance_facing

/-- Behind its parenthesis an argument list is, and on the line of the token that is behind it. -/
theorem callOrGet?_paren {opening : Token} (ho : opening.kind = .leftParen) :
    callOrGet? inner e (facing (opening :: ts) line depth)
      = (nested inner (facing ts line depth).current.line arguments >>= fun es =>
          expect .closedArguments >>= fun _ => pure (some (.call e es)) : Parse (Option Expr))
        (facing ts line depth) := by
  have hpass : accept? [.leftParen] (facing (opening :: ts) line depth)
      = .ok (some opening) (facing ts line depth) := accept?_facing (List.mem_singleton.mpr ho)
  exact (Step.bind_of_ok hpass).trans (Step.bind_of_ok rfl)

/-- Behind a point there is to be a name. -/
theorem callOrGet?_dot {dot : Token} (hd : dot.kind = .dot) :
    callOrGet? inner e (facing (dot :: ts) line depth)
      = (expect .propertyName >>= fun name => pure (some (.get e name)) : Parse (Option Expr))
        (facing ts line depth) := by
  have hparen : accept? [.leftParen] (facing (dot :: ts) line depth)
      = .ok none (facing (dot :: ts) line depth) :=
    accept?_none (show dot.kind ∉ [.leftParen] by simp [hd])
  have hpass : accept? [.dot] (facing (dot :: ts) line depth)
      = .ok (some dot) (facing ts line depth) := accept?_facing (List.mem_singleton.mpr hd)
  exact (Step.bind_of_ok hparen).trans (Step.bind_of_ok hpass)

/-- Behind a sign its operand is a part one level further in. -/
theorem unary_sign {operator : Token} (hk : operator.kind ∈ TokenKind.signs) :
    unary inner (facing (operator :: ts) line depth)
      = (nested inner operator.line (·.operand) >>= fun right =>
          pure (.unary operator right) : Parse Expr) (facing ts line depth) :=
  Step.bind_of_ok (accept?_facing hk)

/-- The left side and the `=` of an assignment are read before its value. -/
theorem assignment_error {ls : List Token} {left : Expr} {equals : Token}
    (hl : Phrase .disjunction room ls left) (hk : equals.kind = .equal)
    (h : nested (inside room) equals.line (·.expression) (facing rest line depth)
      = .error error p') :
    assignment (inside room) (facing (ls ++ equals :: rest) line depth) = .error error p' := by
  have hstop : (facing (equals :: rest) line depth).Stops .disjunction :=
    stops_facing (by simp [hk, Rule.continuations])
  have hleft := (derives_accepts hl.derives).1 room line depth _ hl.fits hstop
  have hpass : accept? [.equal] (facing (equals :: rest) line depth)
      = .ok (some equals) (facing rest line depth) := accept?_facing (List.mem_singleton.mpr hk)
  exact (Step.bind_of_ok hleft).trans ((Step.bind_of_ok hpass).trans (Step.bind_of_error h))

/-- And a left side that is no target is found behind the value. -/
theorem assignment_no_target {n : Nat} {ls rs : List Token} {left value : Expr} {equals : Token}
    (hl : Phrase .disjunction (n + 1) ls left) (htarget : left.isTarget = false)
    (hk : equals.kind = .equal) (hv : Phrase .assignment n rs value)
    (hstop : (facing rest line depth).Stops .assignment) :
    assignment (inside (n + 1)) (facing (ls ++ equals :: rs ++ rest) line depth)
      = .error (.invalidAssignmentTarget equals.line) (facing rest line depth) := by
  have hends : (facing (equals :: rs ++ rest) line depth).Stops .disjunction :=
    stops_facing (by simp [hk, Rule.continuations])
  have hleft := (derives_accepts hl.derives).1 (n + 1) line depth _ hl.fits hends
  have hpass : accept? [.equal] (facing (equals :: rs ++ rest) line depth)
      = .ok (some equals) (facing (rs ++ rest) line depth) :=
    accept?_facing (List.mem_singleton.mpr hk)
  have hvalue := (derives_accepts hv.derives).1 n line (depth + 1) rest hv.fits hstop
  rw [List.append_assoc]
  refine (Step.bind_of_ok hleft).trans ((Step.bind_of_ok hpass).trans ?_)
  refine (Step.bind_of_ok (nested_facing hvalue)).trans ?_
  cases left with
  | var name => cases htarget
  | get object name => cases htarget
  | _ => rfl

/-- A call is read as far as its loop has come, and fails there. -/
theorem call_error {cs : List Token} {callee : Expr} (hc : Phrase .call room cs callee)
    (h : callOrGet? (inside room) callee (facing (t :: rest) line depth) = .error error p') :
    call (inside room) (facing (cs ++ t :: rest) line depth) = .error error p' :=
  parser_error_of_reaches rfl rfl ((derives_accepts hc.derives).2 rfl) hc.fits List.not_mem_nil h

/-- So it fails if what is between its parentheses does. -/
theorem call_error_of_arguments {cs : List Token} {callee : Expr} {opening : Token}
    (hc : Phrase .call room cs callee) (ho : opening.kind = .leftParen)
    (h : nested (inside room) (facing rest line depth).current.line arguments
      (facing rest line depth) = .error error p') :
    call (inside room) (facing (cs ++ opening :: rest) line depth) = .error error p' :=
  call_error hc ((callOrGet?_paren ho).trans (Step.bind_of_error h))

/-- The arguments of a list fail if it does not end at once. -/
theorem arguments_error {level : Level} (hk : p.current.kind ≠ .rightParen)
    (h : argumentsUpTo level.expression maxArguments p = .error error p') :
    arguments level p = .error error p' := (congrFun (if_neg hk) p).trans h

/-- The parser fails with this error. -/
def FailsWith (read : Parse Expr) (p : Parser) (error : SyntaxError) : Prop :=
  ∃ p', read p = .error error p'

end Parse

open Parse (FailsWith)

/-! ## The place of a mistake -/

/-- The first token of what follows is the first one of all if nothing is in front of it. -/
theorem headD_append {α : Type} (xs ys : List α) (x : α) :
    (xs ++ ys).headD x = xs.headD (ys.headD x) := by
  cases xs <;> rfl

theorem Parse.PhraseList.accepts {n : Nat} {us : List Token} {arguments : List (List Token × Expr)}
    (h : PhraseList n us arguments) :
    ∀ a ∈ arguments, Accepts .assignment a.1 a.2 ∧ a.2.Fits n := fun a ha =>
  ⟨(derives_accepts (h.phrases a ha).derives).1, (h.phrases a ha).fits⟩

/-- What is listed starts as an expression does, or there is nothing. -/
theorem Listed.head_not_closing {n count : Nat} {us vs : List Token} {t : Token}
    (h : Listed n count us) (hvs : count = 0 → (vs.headD t).kind ≠ .rightParen) :
    ((us ++ vs).headD t).kind ≠ .rightParen := by
  cases h with
  | nil => exact hvs rfl
  | cons he _ _ =>
      obtain ⟨first, later, rfl, hstart⟩ := he.derives.starts
      exact Rule.start_not_closing hstart

namespace Fault

variable {t : Token} {room k : Nat} {rule : Rule} {ts : List Token} {error : SyntaxError}

/-- **A mistake is found whatever follows**, by induction on its place. -/
theorem fails (h : Fault t room k rule ts error) (hgrammar : ∀ lexical, error ≠ .lexical lexical)
    (rest : List Token) (line depth : Nat) (ht : rest.headD (Token.atEnd line) = t) :
    FailsWith (rule.parser (Parse.inside room)) (facing (ts ++ rest) line depth) error := by
  subst ht
  induction h generalizing depth with
  | lexical _ => exact absurd rfl (hgrammar _)
  | noExpression hk => exact ⟨_, Parse.primary_error hk⟩
  | @unclosedGrouping room ts e opening ho he hstop hk =>
      have hread := (derives_accepts he.derives).1 room line (depth + 1) rest he.fits hstop
      refine ⟨facing rest line depth, (Parse.primary_paren ho).trans ?_⟩
      exact (Step.bind_of_ok (Parse.nested_facing hread)).trans
        (Step.bind_of_error (Parse.expect_error hk))
  | @noName room os object dot ho hd hk =>
      rw [List.append_assoc]
      refine ⟨facing rest line depth, Parse.call_error ho ((Parse.callOrGet?_dot hd).trans ?_)⟩
      exact Step.bind_of_error (Parse.expect_error hk)
  | @unclosedArguments room cs us callee opening arguments hc ho ha hne hlen hstop hcomma hk =>
      have hread : Parse.arguments
          ⟨Parse.assignment (Parse.inside room), Parse.unary (Parse.inside room)⟩
          (facing (us ++ rest) line (depth + 1))
            = .ok (arguments.map Prod.snd) (facing rest line (depth + 1)) :=
        Parse.arguments_accepts ha.separated (fun a hm => (ha.phrases a hm).derives) ha.accepts hlen
          (Or.inr ⟨hne, hstop, hcomma⟩)
      rw [List.append_assoc]
      refine ⟨facing rest line depth, Parse.call_error hc ((Parse.callOrGet?_paren ho).trans ?_)⟩
      exact (Step.bind_of_ok (Parse.nested_facing hread)).trans
        (Step.bind_of_error (Parse.expect_error hk))
  | @extraArgument room cs us callee opening hc ho hl =>
      have hmany : Parse.argumentsUpTo (Parse.assignment (Parse.inside room)) maxArguments
          (facing (us ++ rest) line (depth + 1))
            = .error (.tooManyArguments (rest.headD (Token.atEnd line)).line)
              (facing rest line (depth + 1)) := Parse.argumentsUpTo_error hl 0 rfl
      have hstart : ((us ++ rest).headD (Token.atEnd line)).kind ≠ .rightParen :=
        hl.head_not_closing fun h => absurd h (by decide)
      rw [List.append_assoc]
      exact ⟨_, Parse.call_error_of_arguments hc ho
        (Parse.nested_of_error (Parse.arguments_error hstart hmany))⟩
  | @noTarget room ls rs left value equals hl htarget hk hv hstop =>
      exact ⟨_, Parse.assignment_no_target hl htarget hk hv hstop⟩
  | signTooDeep hk => exact ⟨_, (Parse.unary_sign hk).trans (Step.bind_of_error rfl)⟩
  | groupingTooDeep ho => exact ⟨_, (Parse.primary_paren ho).trans (Step.bind_of_error rfl)⟩
  | argumentsTooDeep hc ho =>
      rw [List.append_assoc]
      exact ⟨_, Parse.call_error_of_arguments hc ho rfl⟩
  | valueTooDeep hl hk =>
      rw [List.append_assoc]
      exact ⟨_, Parse.assignment_error hl hk rfl⟩
  | @tighter room k rule next ts error htighter hsign _ ih =>
      obtain ⟨p', hp'⟩ := ih hgrammar depth
      refine ⟨p', ?_⟩
      cases rule with
      | assignment => cases htighter; exact Step.bind_of_error hp'
      | unary =>
          cases htighter
          have hnone : (facing (ts ++ rest) line depth).current.kind ∉ TokenKind.signs := by
            show ((ts ++ rest).headD _).kind ∉ _
            rw [headD_append]
            exact hsign rfl
          exact (Step.bind_of_ok (Parse.accept?_none hnone)).trans hp'
      | primary => cases htighter
      | _ =>
          rw [Rule.parser_eq_grow htighter rfl]
          exact Step.bind_of_error hp'
  | @operand room k rule next ls rs left operator error hl hk htighter _ ih =>
      obtain ⟨p', hp'⟩ := ih hgrammar depth
      have hreaches := (derives_accepts hl.derives).2 (Rule.repeats_of_operator hk)
      rw [List.append_assoc]
      refine ⟨p', Parse.parser_error_of_reaches htighter (Rule.repeats_of_operator hk) hreaches
        hl.fits (Rule.operator_not_continuation htighter hk) ?_⟩
      rw [Rule.extend?_of_operator hk]
      exact (Step.bind_of_ok (Parse.accept?_facing hk)).trans (Step.bind_of_error hp')
  | sign hk _ ih =>
      obtain ⟨p', hp'⟩ := ih hgrammar (depth + 1)
      exact ⟨p', (Parse.unary_sign hk).trans (Step.bind_of_error (Parse.nested_of_error hp'))⟩
  | grouping ho _ ih =>
      obtain ⟨p', hp'⟩ := ih hgrammar (depth + 1)
      exact ⟨p', (Parse.primary_paren ho).trans (Step.bind_of_error (Parse.nested_of_error hp'))⟩
  | @argument room k count cs us vs callee opening error hc ho hl hcount hfirst _ ih =>
      obtain ⟨p', hp'⟩ := ih hgrammar (depth + 1)
      obtain ⟨left, hleft⟩ := Nat.exists_eq_add_of_lt hcount
      have hnext : Parse.argumentsUpTo (Parse.assignment (Parse.inside room)) (left + 1)
          (facing (vs ++ rest) line (depth + 1)) = .error error p' := Step.bind_of_error hp'
      have hlist : Parse.argumentsUpTo (Parse.assignment (Parse.inside room)) maxArguments
          (facing (us ++ (vs ++ rest)) line (depth + 1)) = .error error p' := by
        rw [hleft, Nat.add_assoc]
        exact Parse.argumentsUpTo_error hl _ hnext
      have hstart : ((us ++ (vs ++ rest)).headD (Token.atEnd line)).kind ≠ .rightParen :=
        hl.head_not_closing fun h => by
          rw [headD_append]
          exact hfirst h
      rw [List.append_assoc, List.cons_append, List.append_assoc]
      exact ⟨p', Parse.call_error_of_arguments hc ho
        (Parse.nested_of_error (Parse.arguments_error hstart hlist))⟩
  | value hl hk _ ih =>
      obtain ⟨p', hp'⟩ := ih hgrammar (depth + 1)
      rw [List.append_assoc]
      exact ⟨p', Parse.assignment_error hl hk (Parse.nested_of_error hp')⟩

end Fault

end Lox
