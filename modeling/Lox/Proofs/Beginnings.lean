import Lox.Proofs.ParserSound

/-!
# How a phrase begins, and where it goes wrong

What is known of a text in the middle of it? Some tokens have been passed, and they begin a phrase.
How many levels are open at a place can be said without a parser: `Begun room k rule ts` says that
the tokens `ts` are how a phrase of a rule begins, up to a place where `k` of its levels are open.

`Fault t room k rule ts error` is about such a place where the token `t` is a mistake, and says
which one. It has a constructor for each mistake, and one for each way in which a phrase lies inside
of another. So what a mistake is about can be followed from the place where it is made up to the
whole text, by one induction for each question.
-/

namespace Lox

namespace SyntaxError

/-- The number of levels that an error says could not be opened any more. -/
def unopened : SyntaxError → Nat
  | tooDeep _ => 1
  | _ => 0

end SyntaxError

/-! ## How a phrase begins -/

theorem Expr.Fits.mono {n m : Nat} {e : Expr} (h : e.Fits n) (hn : n ≤ m) : e.Fits m :=
  ⟨Nat.le_trans h.nesting_le hn, h.arity_le⟩

theorem Phrase.mono {rule : Rule} {n m : Nat} {ts : List Token} {e : Expr}
    (h : Phrase rule n ts e) (hn : n ≤ m) : Phrase rule m ts e := ⟨h.derives, h.fits.mono hn⟩

/-- The tokens `ts` are `count` arguments with a comma behind each of them. -/
inductive Listed (room : Nat) : Nat → List Token → Prop where
  | nil : Listed room 0 []
  | cons {count : Nat} {ts us : List Token} {e : Expr} {comma : Token} :
      Phrase .assignment room ts e → comma.kind = .comma → Listed room count us →
      Listed room (count + 1) (ts ++ comma :: us)

theorem Listed.mono {n m count : Nat} {ts : List Token} (h : Listed n count ts) (hn : n ≤ m) :
    Listed m count ts := by
  induction h with
  | nil => exact .nil
  | cons hp hc _ ih => exact .cons (hp.mono hn) hc ih

/--
`Begun room k rule ts`: the tokens `ts` begin a phrase of the rule in which `room` levels may be
open, and behind them `k` are.

The tokens may be a whole phrase, since something that goes on with it may still follow. A level is
closed as soon as the part that it was opened for has ended, in front of the parenthesis that closes
it.
-/
inductive Begun : Nat → Nat → Rule → List Token → Prop where
  | nothing {room : Nat} {rule : Rule} : Begun room 0 rule []
  | whole {room : Nat} {rule : Rule} {ts : List Token} {e : Expr} :
      Phrase rule room ts e → Begun room 0 rule ts
  | tighter {room k : Nat} {rule next : Rule} {ts : List Token} :
      rule.tighter? = some next → Begun room k next ts → Begun room k rule ts
  | operand {room k : Nat} {rule next : Rule} {ls rs : List Token} {left : Expr}
      {operator : Token} :
      Phrase rule room ls left → operator.kind ∈ rule.operators → rule.tighter? = some next →
      Begun room k next rs → Begun room k rule (ls ++ operator :: rs)
  | sign {room k : Nat} {ts : List Token} {operator : Token} :
      operator.kind ∈ TokenKind.signs → Begun room k .unary ts →
      Begun (room + 1) (k + 1) .unary (operator :: ts)
  | grouping {room k : Nat} {ts : List Token} {opening : Token} :
      opening.kind = .leftParen → Begun room k .assignment ts →
      Begun (room + 1) (k + 1) .primary (opening :: ts)
  | unclosedGrouping {room : Nat} {ts : List Token} {e : Expr} {opening : Token} :
      opening.kind = .leftParen → Phrase .assignment room ts e →
      Begun (room + 1) 0 .primary (opening :: ts)
  | property {room : Nat} {os : List Token} {object : Expr} {dot : Token} :
      Phrase .call room os object → dot.kind = .dot → Begun room 0 .call (os ++ [dot])
  | argument {room k count : Nat} {cs us vs : List Token} {callee : Expr} {opening : Token} :
      Phrase .call (room + 1) cs callee → opening.kind = .leftParen → Listed room count us →
      count ≤ maxArguments → Begun room k .assignment vs →
      Begun (room + 1) (k + 1) .call (cs ++ opening :: (us ++ vs))
  | unclosedArguments {room : Nat} {cs us : List Token} {callee : Expr} {opening : Token}
      {arguments : List (List Token × Expr)} :
      Phrase .call (room + 1) cs callee → opening.kind = .leftParen →
      Parse.PhraseList room us arguments → arguments.length ≤ maxArguments →
      Begun (room + 1) 0 .call (cs ++ opening :: us)
  | value {room k : Nat} {ls rs : List Token} {left : Expr} {equals : Token} :
      Phrase .disjunction (room + 1) ls left → equals.kind = .equal →
      Begun room k .assignment rs → Begun (room + 1) (k + 1) .assignment (ls ++ equals :: rs)
  | assigned {room : Nat} {ls rs : List Token} {left value : Expr} {equals : Token} :
      Phrase .disjunction (room + 1) ls left → equals.kind = .equal →
      Phrase .assignment room rs value → Begun (room + 1) 0 .assignment (ls ++ equals :: rs)

/-- No more levels are open than may be. -/
theorem Begun.le {room k : Nat} {rule : Rule} {ts : List Token} (h : Begun room k rule ts) :
    k ≤ room := by
  induction h with
  | tighter _ _ ih => exact ih
  | operand _ _ _ _ ih => exact ih
  | sign _ _ ih => exact Nat.succ_le_succ ih
  | grouping _ _ ih => exact Nat.succ_le_succ ih
  | argument _ _ _ _ _ ih => exact Nat.succ_le_succ ih
  | value _ _ _ ih => exact Nat.succ_le_succ ih
  | _ => exact Nat.zero_le _

/-! ## How a phrase goes wrong -/

/-- An expression that something can be assigned to, if it stands in front of `=`. -/
def Expr.isTarget : Expr → Bool
  | var _ => true
  | get _ _ => true
  | _ => false

/--
`Fault t room k rule ts error`: the tokens `ts` begin a phrase of the rule in which `room`
levels may be open, and the token `t` behind them, where `k` levels are open, makes it go
wrong with `error`.

A token may be wrong in one place and right in another that looks like it. Behind the parenthesis of
a call the arguments may be none, and a sign may stand in front of a call where an operand is to
begin. That is why an argument and an operand ask how they start.
-/
inductive Fault (t : Token) : Nat → Nat → Rule → List Token → SyntaxError → Prop where
  /-- The token may be right, but there is an error of the text behind it. -/
  | lexical {room k : Nat} {rule : Rule} {ts : List Token} {error : LexError} :
      Begun room k rule ts → Fault t room k rule ts (.lexical error)
  | noExpression {room : Nat} :
      t.kind ∉ Rule.starts .primary → Fault t room 0 .primary [] (.expectedExpression t)
  | unclosedGrouping {room : Nat} {ts : List Token} {e : Expr} {opening : Token} :
      opening.kind = .leftParen → Phrase .assignment room ts e →
      t.kind ∉ Rule.continuations .assignment → t.kind ≠ .rightParen →
      Fault t (room + 1) 0 .primary (opening :: ts) (.unexpectedToken .closedGrouping t)
  | noName {room : Nat} {os : List Token} {object : Expr} {dot : Token} :
      Phrase .call room os object → dot.kind = .dot → t.kind ≠ .identifier →
      Fault t room 0 .call (os ++ [dot]) (.unexpectedToken .propertyName t)
  | unclosedArguments {room : Nat} {cs us : List Token} {callee : Expr} {opening : Token}
      {arguments : List (List Token × Expr)} :
      Phrase .call (room + 1) cs callee → opening.kind = .leftParen →
      Parse.PhraseList room us arguments → arguments ≠ [] → arguments.length ≤ maxArguments →
      t.kind ∉ Rule.continuations .assignment → t.kind ≠ .comma → t.kind ≠ .rightParen →
      Fault t (room + 1) 0 .call (cs ++ opening :: us) (.unexpectedToken .closedArguments t)
  | extraArgument {room : Nat} {cs us : List Token} {callee : Expr} {opening : Token} :
      Phrase .call (room + 1) cs callee → opening.kind = .leftParen →
      Listed room maxArguments us →
      Fault t (room + 1) 1 .call (cs ++ opening :: us) (.tooManyArguments t.line)
  | noTarget {room : Nat} {ls rs : List Token} {left value : Expr} {equals : Token} :
      Phrase .disjunction (room + 1) ls left → left.isTarget = false → equals.kind = .equal →
      Phrase .assignment room rs value → t.kind ∉ Rule.continuations .assignment →
      Fault t (room + 1) 0 .assignment (ls ++ equals :: rs) (.invalidAssignmentTarget equals.line)
  | signTooDeep {operator : Token} :
      operator.kind ∈ TokenKind.signs → Fault t 0 0 .unary [operator] (.tooDeep operator.line)
  | groupingTooDeep {opening : Token} :
      opening.kind = .leftParen → Fault t 0 0 .primary [opening] (.tooDeep opening.line)
  /-- The level of an argument list is opened at the token behind its parenthesis. -/
  | argumentsTooDeep {cs : List Token} {callee : Expr} {opening : Token} :
      Phrase .call 0 cs callee → opening.kind = .leftParen →
      Fault t 0 0 .call (cs ++ [opening]) (.tooDeep t.line)
  | valueTooDeep {ls : List Token} {left : Expr} {equals : Token} :
      Phrase .disjunction 0 ls left → equals.kind = .equal →
      Fault t 0 0 .assignment (ls ++ [equals]) (.tooDeep equals.line)
  | tighter {room k : Nat} {rule next : Rule} {ts : List Token} {error : SyntaxError} :
      rule.tighter? = some next → (rule = .unary → (ts.headD t).kind ∉ TokenKind.signs) →
      Fault t room k next ts error → Fault t room k rule ts error
  | operand {room k : Nat} {rule next : Rule} {ls rs : List Token} {left : Expr}
      {operator : Token} {error : SyntaxError} :
      Phrase rule room ls left → operator.kind ∈ rule.operators → rule.tighter? = some next →
      Fault t room k next rs error → Fault t room k rule (ls ++ operator :: rs) error
  | sign {room k : Nat} {ts : List Token} {operator : Token} {error : SyntaxError} :
      operator.kind ∈ TokenKind.signs → Fault t room k .unary ts error →
      Fault t (room + 1) (k + 1) .unary (operator :: ts) error
  | grouping {room k : Nat} {ts : List Token} {opening : Token} {error : SyntaxError} :
      opening.kind = .leftParen → Fault t room k .assignment ts error →
      Fault t (room + 1) (k + 1) .primary (opening :: ts) error
  | argument {room k count : Nat} {cs us vs : List Token} {callee : Expr} {opening : Token}
      {error : SyntaxError} :
      Phrase .call (room + 1) cs callee → opening.kind = .leftParen → Listed room count us →
      count < maxArguments → (count = 0 → (vs.headD t).kind ≠ .rightParen) →
      Fault t room k .assignment vs error →
      Fault t (room + 1) (k + 1) .call (cs ++ opening :: (us ++ vs)) error
  | value {room k : Nat} {ls rs : List Token} {left : Expr} {equals : Token}
      {error : SyntaxError} :
      Phrase .disjunction (room + 1) ls left → equals.kind = .equal →
      Fault t room k .assignment rs error →
      Fault t (room + 1) (k + 1) .assignment (ls ++ equals :: rs) error

namespace Fault

variable {t : Token} {room k : Nat} {rule : Rule} {ts : List Token} {error : SyntaxError}

/-- **What goes wrong has begun**, with the levels that are open there. One that could not be opened
would be one more. -/
theorem begun (h : Fault t room k rule ts error) :
    Begun (room + error.unopened) (k + error.unopened) rule ts := by
  induction h with
  | lexical hb => exact hb
  | noExpression _ => exact .nothing
  | unclosedGrouping ho he _ _ => exact .unclosedGrouping ho he
  | noName ho hd _ => exact .property ho hd
  | unclosedArguments hc ho ha _ hlen _ _ _ => exact .unclosedArguments hc ho ha hlen
  | extraArgument hc ho hl =>
      have hbegun := Begun.argument hc ho hl (Nat.le_refl _) .nothing
      rwa [List.append_nil] at hbegun
  | noTarget hl _ hk hv _ => exact .assigned hl hk hv
  | signTooDeep hk => exact .sign hk .nothing
  | groupingTooDeep ho => exact .grouping ho .nothing
  | argumentsTooDeep hc ho =>
      exact .argument (hc.mono (Nat.zero_le _)) ho .nil (Nat.zero_le _) .nothing
  | valueTooDeep hl hk => exact .value (hl.mono (Nat.zero_le _)) hk .nothing
  | tighter ht _ _ ih => exact .tighter ht ih
  | operand hl hk ht _ ih => exact .operand (hl.mono (Nat.le_add_right ..)) hk ht ih
  | sign hk _ ih =>
      rw [Nat.add_right_comm, Nat.add_right_comm _ 1]
      exact .sign hk ih
  | grouping ho _ ih =>
      rw [Nat.add_right_comm, Nat.add_right_comm _ 1]
      exact .grouping ho ih
  | argument hc ho hl hcount _ _ ih =>
      rw [Nat.add_right_comm, Nat.add_right_comm _ 1]
      exact .argument (hc.mono (Nat.succ_le_succ (Nat.le_add_right ..))) ho
        (hl.mono (Nat.le_add_right ..)) (Nat.le_of_lt hcount) ih
  | value hl hk _ ih =>
      rw [Nat.add_right_comm, Nat.add_right_comm _ 1]
      exact .value (hl.mono (Nat.succ_le_succ (Nat.le_add_right ..))) hk ih

/-- A level cannot be opened only if all others are open. -/
theorem full (h : Fault t room k rule ts error) (hu : error.unopened = 1) : k = room := by
  induction h with
  | signTooDeep _ => rfl
  | groupingTooDeep _ => rfl
  | argumentsTooDeep _ _ => rfl
  | valueTooDeep _ _ => rfl
  | tighter _ _ _ ih => exact ih hu
  | operand _ _ _ _ ih => exact ih hu
  | sign _ _ ih => rw [ih hu]
  | grouping _ _ ih => rw [ih hu]
  | argument _ _ _ _ _ _ ih => rw [ih hu]
  | value _ _ _ ih => rw [ih hu]
  -- the other mistakes are not about a level
  | _ => cases hu

end Fault

end Lox
