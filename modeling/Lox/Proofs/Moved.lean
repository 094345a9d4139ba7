import Mathlib.Data.List.Forall2
import Lox.Expr.Parser
import Lox.Proofs.Alike
import Lox.Proofs.Grammar
import Lox.Proofs.Parallel

/-!
# The same on other lines

What becomes of a text when its tokens are moved to other lines? `Token.Moved L t t'` says that `t'`
is the token `t` on a line that `L` relates to the line of `t`; and expressions, errors and parsers
are moved if their tokens and lines are. Nothing is asked of `L`. If it relates any two lines, then
`Moved` is to be the same but for the lines. If it relates the lines of a text to themselves and no
others, then what is moved to itself is on lines of that text.

A parser does the same wherever its tokens stand, since it looks at their kinds alone: what it makes
of moved tokens is moved in the same way. So lines are passed on and never looked at, and none is
made up.
-/

namespace Lox

variable {L : Nat → Nat → Prop}

/-! ## What it is to be moved -/

/-- The same token, on a line that `L` relates to its own. -/
structure Token.Moved (L : Nat → Nat → Prop) (t t' : Token) : Prop where
  kind : t.kind = t'.kind
  lexeme : t.lexeme = t'.lexeme
  literal : t.literal = t'.literal
  line : L t.line t'.line

/-- The same expression, with its tokens on other lines. -/
abbrev Expr.Moved (L : Nat → Nat → Prop) : Expr → Expr → Prop := Expr.Alike (Token.Moved L) Eq

inductive LexError.Moved (L : Nat → Nat → Prop) : LexError → LexError → Prop where
  | unexpectedCharacter {c : Char} {line line' : Nat} :
      L line line' → Moved L (unexpectedCharacter c line) (unexpectedCharacter c line')
  | unterminatedString {line line' : Nat} :
      L line line' → Moved L (unterminatedString line) (unterminatedString line')

inductive SyntaxError.Moved (L : Nat → Nat → Prop) : SyntaxError → SyntaxError → Prop where
  | lexical {error error' : LexError} :
      error.Moved L error' → Moved L (lexical error) (lexical error')
  | unexpectedToken {expected : Expectation} {found found' : Token} :
      found.Moved L found' →
        Moved L (unexpectedToken expected found) (unexpectedToken expected found')
  | expectedExpression {found found' : Token} :
      found.Moved L found' → Moved L (expectedExpression found) (expectedExpression found')
  | invalidAssignmentTarget {line line' : Nat} :
      L line line' → Moved L (invalidAssignmentTarget line) (invalidAssignmentTarget line')
  | tooManyArguments {line line' : Nat} :
      L line line' → Moved L (tooManyArguments line) (tooManyArguments line')
  | tooDeep {line line' : Nat} :
      L line line' → Moved L (tooDeep line) (tooDeep line')

inductive Ending.Moved (L : Nat → Nat → Prop) : Ending → Ending → Prop where
  | finished {line line' : Nat} : L line line' → Moved L (finished line) (finished line')
  | unexpected {c : Char} {line line' : Nat} :
      L line line' → Moved L (unexpected c line) (unexpected c line')
  | unterminated {line line' last last' : Nat} :
      L line line' → L last last' → Moved L (unterminated line last) (unterminated line' last')

structure Scan.Moved (L : Nat → Nat → Prop) (scan scan' : Scan) : Prop where
  tokens : List.Forall₂ (Token.Moved L) scan.tokens scan'.tokens
  ending : scan.ending.Moved L scan'.ending

structure Parser.Moved (L : Nat → Nat → Prop) (p p' : Parser) : Prop where
  current : p.current.Moved L p'.current
  ahead : p.ahead.Moved L p'.ahead
  depth : p.depth = p'.depth

/-- The line of an error is moved with it. -/
theorem SyntaxError.Moved.line {error error' : SyntaxError} (h : error.Moved L error') :
    L error.line error'.line := by
  cases h with
  | lexical h => cases h <;> assumption
  | unexpectedToken h => exact h.line
  | expectedExpression h => exact h.line
  | _ => assumption

/-- The token of the end is moved like any other. -/
theorem Token.atEnd_moved {line line' : Nat} (h : L line line') :
    (Token.atEnd line).Moved L (Token.atEnd line') := ⟨rfl, rfl, rfl, h⟩

/-- What follows the tokens of a scan is moved with them. -/
theorem Scan.next_moved {scan scan' : Scan} (h : scan.Moved L scan') :
    Step.SameOutcome (LexError.Moved L) (Token.Moved L) scan.next.1 scan'.next.1
      ∧ scan.next.2.Moved L scan'.next.2 := by
  obtain ⟨tokens, ending⟩ := scan
  obtain ⟨tokens', ending'⟩ := scan'
  obtain ⟨htokens, hending⟩ := h
  cases htokens with
  | cons ht hlater => exact ⟨.ok ht, hlater, hending⟩
  | nil =>
      cases hending with
      | finished hline => exact ⟨.ok (Token.atEnd_moved hline), .nil, .finished hline⟩
      | unexpected hline =>
          exact ⟨.error (.unexpectedCharacter hline), .nil, .unexpected hline⟩
      | unterminated hline hlast =>
          exact ⟨.error (.unterminatedString hline), .nil, .finished hlast⟩

/-! ## Single tokens -/

namespace Parse

/-- From moved parsers, two steps come to moved parsers and errors. -/
abbrev Parallel {α : Type} (L : Nat → Nat → Prop) (A : α → α → Prop) (x x' : Parse α) : Prop :=
  Step.Parallel (Parser.Moved L) (SyntaxError.Moved L) A x x'

variable {α : Type} {A : α → α → Prop}

theorem advance_parallel : Parallel L (Token.Moved L) advance advance := by
  intro p p' hp
  obtain ⟨hnext, hahead⟩ := Scan.next_moved hp.ahead
  unfold advance
  cases hscan : p.ahead.next with
  | mk first ahead =>
      cases hscan' : p'.ahead.next with
      | mk first' ahead' =>
          rw [hscan, hscan'] at hnext hahead
          cases hnext with
          | ok ht => exact .ok hp.current ⟨ht, hahead, hp.depth⟩
          | error he => exact .error (.lexical he) ⟨hp.current, hahead, hp.depth⟩

theorem accept?_parallel (kinds : List TokenKind) :
    Parallel L (Option.Rel (Token.Moved L)) (accept? kinds) (accept? kinds) := by
  refine Step.Parallel.get.bind fun p p' hp _ => ?_
  rw [hp.current.kind]
  split
  · exact advance_parallel.bind fun t t' ht _ => .pure (.some ht)
  · exact .pure .none

theorem expect_parallel (expected : Expectation) :
    Parallel L (Token.Moved L) (expect expected) (expect expected) := by
  refine Step.Parallel.get.bind fun p p' hp _ => ?_
  dsimp only
  rw [hp.current.kind]
  split
  · exact advance_parallel
  · exact .throw (.unexpectedToken hp.current)

/-! ## Parts one level further in -/

/-- A level at which a parser does the same wherever its tokens stand. -/
structure Level.Parallel (L : Nat → Nat → Prop) (level : Level) : Prop where
  expression : Parse.Parallel L (Expr.Moved L) level.expression level.expression
  operand : Parse.Parallel L (Expr.Moved L) level.operand level.operand

theorem nested_parallel {inner : Option Level} {line line' : Nat} {part : Level → Parse α}
    (hline : L line line')
    (hpart : ∀ level, inner = some level → Parallel L A (part level) (part level)) :
    Parallel L A (nested inner line part) (nested inner line' part) := by
  cases inner with
  | none => exact .throw (.tooDeep hline)
  | some level =>
      have hdown : ∀ p p' : Parser, p.Moved L p' →
          Parser.Moved L { p with depth := p.depth + 1 } { p' with depth := p'.depth + 1 } :=
        fun p p' hp => ⟨hp.current, hp.ahead, congrArg (· + 1) hp.depth⟩
      have hup : ∀ p p' : Parser, p.Moved L p' →
          Parser.Moved L { p with depth := p.depth - 1 } { p' with depth := p'.depth - 1 } :=
        fun p p' hp => ⟨hp.current, hp.ahead, congrArg (· - 1) hp.depth⟩
      refine (Step.Parallel.change hdown).bind fun _ _ _ _ => ?_
      refine (hpart level rfl).bind fun a a' ha _ => ?_
      exact (Step.Parallel.change hup).bind fun _ _ _ _ => .pure ha

/-! ## Loops -/

/-- A step of a loop that does the same wherever its expression stands. -/
def ExtendParallel (L : Nat → Nat → Prop) (extend? : Expr → Parse (Option Expr)) : Prop :=
  ∀ e e', e.Moved L e' → Parallel L (Option.Rel (Expr.Moved L)) (extend? e) (extend? e')

theorem growOver_parallel {extend? : Expr → Parse (Option Expr)}
    (hx : ExtendParallel L extend?) {bound bound' : List Token}
    (hbound : List.Forall₂ (Token.Moved L) bound bound') {e e' : Expr} (he : e.Moved L e') :
    Parallel L (Expr.Moved L) (growOver extend? bound e) (growOver extend? bound' e') := by
  induction hbound generalizing e e' with
  | nil => exact .pure he
  | cons _ _ ih =>
    refine (hx e e' he).bind fun longer longer' hlonger _ => ?_
    cases hlonger with
    | none => exact .pure he
    | some hlonger => exact ih hlonger

/-- The bound of a loop is the number of tokens that are left, and so it is the same. -/
theorem grow_parallel {extend? : Expr → Parse (Option Expr)} (hx : ExtendParallel L extend?)
    {first : Parse Expr} (hfirst : Parallel L (Expr.Moved L) first first) :
    Parallel L (Expr.Moved L) (first >>= grow extend?) (first >>= grow extend?) := by
  refine hfirst.bind fun e e' he _ => ?_
  refine Step.Parallel.get.bind fun p p' hp _ => ?_
  exact growOver_parallel hx (.cons hp.current hp.ahead.tokens) he

theorem leftAssociative_parallel (rule : Rule) {operand : Parse Expr}
    (h : Parallel L (Expr.Moved L) operand operand) :
    Parallel L (Expr.Moved L) (leftAssociative rule.operators rule.combine operand)
      (leftAssociative rule.operators rule.combine operand) := by
  refine grow_parallel (fun left left' hleft => ?_) h
  refine (accept?_parallel _).bind fun o o' ho _ => ?_
  cases ho with
  | none => exact .pure .none
  | some ho =>
      refine h.bind fun right right' hright _ => .pure (.some ?_)
      cases rule <;> first | exact .binary hleft ho hright | exact .logical hleft ho hright

/-! ## The rules -/

section Rules

variable {inner : Option Level} (hinner : ∀ level, inner = some level → level.Parallel L)
include hinner

theorem primary_parallel : Parallel L (Expr.Moved L) (primary inner) (primary inner) := by
  have hliteral : Parallel L (Expr.Moved L)
      (advance >>= fun t => pure (.literal (t.literal.getD .nil)))
      (advance >>= fun t => pure (.literal (t.literal.getD .nil))) :=
    advance_parallel.bind fun t t' ht _ => .pure (.literal (by rw [ht.literal]))
  refine Step.Parallel.get.bind fun p p' hp _ => ?_
  dsimp only
  rw [hp.current.kind]
  split
  · exact hliteral
  · exact hliteral
  · exact hliteral
  · exact hliteral
  · exact hliteral
  · exact advance_parallel.bind fun t t' ht _ => .pure (.var ht)
  · refine advance_parallel.bind fun t t' ht _ => ?_
    refine (nested_parallel ht.line fun level h => (hinner level h).expression).bind ?_
    intro e e' he _
    exact (expect_parallel _).bind fun _ _ _ _ => .pure (.grouping he)
  · exact .throw (.expectedExpression hp.current)

omit hinner in
theorem argumentsUpTo_parallel {expression : Parse Expr}
    (h : Parallel L (Expr.Moved L) expression expression) (room : Nat) :
    Parallel L (Expr.AlikeList (Token.Moved L) Eq) (argumentsUpTo expression room)
      (argumentsUpTo expression room) := by
  induction room with
  | zero => exact Step.Parallel.get.bind fun p p' hp _ => .throw (.tooManyArguments hp.current.line)
  | succ room ih =>
    refine h.bind fun e e' he _ => ?_
    refine (accept?_parallel _).bind fun o o' ho _ => ?_
    cases ho with
    | none => exact .pure (.cons he .nil)
    | some _ => exact ih.bind fun es es' hes _ => .pure (.cons he hes)

omit hinner in
theorem arguments_parallel {level : Level} (h : level.Parallel L) :
    Parallel L (Expr.AlikeList (Token.Moved L) Eq) (arguments level) (arguments level) := by
  refine Step.Parallel.get.bind fun p p' hp _ => ?_
  rw [hp.current.kind]
  split
  · exact .pure .nil
  · exact argumentsUpTo_parallel h.expression _

theorem callOrGet?_parallel : ExtendParallel L (callOrGet? inner) := by
  intro e e' he
  refine (accept?_parallel _).bind fun paren paren' hparen _ => ?_
  cases hparen with
  | some _ =>
      refine Step.Parallel.get.bind fun p p' hp _ => ?_
      have harguments := nested_parallel hp.current.line fun level h =>
        arguments_parallel (hinner level h)
      refine harguments.bind fun es es' hes _ => ?_
      exact (expect_parallel _).bind fun _ _ _ _ => .pure (.some (.call he hes))
  | none =>
      refine (accept?_parallel _).bind fun point point' hpoint _ => ?_
      cases hpoint with
      | some _ => exact (expect_parallel _).bind fun n n' hn _ => .pure (.some (.get he hn))
      | none => exact .pure .none

theorem unary_parallel : Parallel L (Expr.Moved L) (unary inner) (unary inner) := by
  refine (accept?_parallel _).bind fun o o' ho _ => ?_
  cases ho with
  | none => exact grow_parallel (callOrGet?_parallel hinner) (primary_parallel hinner)
  | some ho =>
      refine (nested_parallel ho.line fun level h => (hinner level h).operand).bind ?_
      exact fun right right' hright _ => .pure (.unary ho hright)

theorem disjunction_parallel :
    Parallel L (Expr.Moved L) (disjunction inner) (disjunction inner) := by
  have hfactor := leftAssociative_parallel .factor (unary_parallel hinner)
  have hcomparison := leftAssociative_parallel .comparison (leftAssociative_parallel .term hfactor)
  have hequality := leftAssociative_parallel .equality hcomparison
  exact leftAssociative_parallel .disjunction (leftAssociative_parallel .conjunction hequality)

theorem assignment_parallel : Parallel L (Expr.Moved L) (assignment inner) (assignment inner) := by
  refine (disjunction_parallel hinner).bind fun left left' hleft _ => ?_
  refine (accept?_parallel _).bind fun o o' ho _ => ?_
  cases ho with
  | none => exact .pure hleft
  | some ho =>
      refine (nested_parallel ho.line fun level h => (hinner level h).expression).bind ?_
      intro value value' hvalue _
      -- the left side is a target in both, or in neither
      cases hleft with
      | var ht => exact .pure (.assign ht ho hvalue)
      | get he hn => exact .pure (.set he hn hvalue)
      | _ => exact .throw (.invalidAssignmentTarget ho.line)

end Rules

/-! ## Whole texts -/

/-- At every level, by induction on the number of those inside it. -/
theorem inside_parallel (room : Nat) :
    ∀ level, inside room = some level → level.Parallel L := by
  induction room with
  | zero => nofun
  | succ room ih =>
    intro level h
    cases h
    exact ⟨assignment_parallel ih, unary_parallel ih⟩

theorem expression_parallel : Parallel L (Expr.Moved L) expression expression := by
  refine Step.Parallel.get.bind fun p p' hp _ => ?_
  rw [hp.depth]
  exact assignment_parallel (inside_parallel _)

theorem whole_parallel : Parallel L (Expr.Moved L) whole whole := by
  refine expression_parallel.bind fun e e' he _ => ?_
  exact (expect_parallel _).bind fun _ _ _ _ => .pure he

end Parse

theorem Parser.start_moved {text text' : String}
    (h : (Scan.ofText text).Moved L (Scan.ofText text')) :
    Step.SameOutcome (SyntaxError.Moved L) (Parser.Moved L) (start text) (start text') := by
  obtain ⟨hnext, hahead⟩ := Scan.next_moved h
  unfold start
  cases hscan : (Scan.ofText text).next with
  | mk first ahead =>
      cases hscan' : (Scan.ofText text').next with
      | mk first' ahead' =>
          rw [hscan, hscan'] at hnext hahead
          cases hnext with
          | ok ht => exact .ok ⟨ht, hahead, rfl⟩
          | error he => exact .error (.lexical he)

/-- **Texts with the same tokens on other lines are parsed alike**, as the same expression on other
lines or with the same error on another line. -/
theorem parse_moved {text text' : String}
    (h : (Scan.ofText text).Moved L (Scan.ofText text')) :
    Step.SameOutcome (SyntaxError.Moved L) (Expr.Moved L) (parse text) (parse text') := by
  refine (Parser.start_moved h).bind fun p p' hp => ?_
  have hends := Parse.whole_parallel p p' hp
  generalize Parse.whole p = r at hends ⊢
  generalize Parse.whole p' = r' at hends ⊢
  cases hends with
  | ok he _ => exact .ok he
  | error he _ => exact .error he

end Lox
