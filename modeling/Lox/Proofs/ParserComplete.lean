import Lox.Proofs.ParserSteps

/-!
# What the grammar derives is parsed, and in no other way

A derivation is followed through the parser. The point of the argument is where the parser stops:
`Accepts rule ts e` says that the parser of a rule passes exactly `ts` and makes `e` of it,
whatever comes after, as long as the next token could not go on with the phrase.

A phrase of a rule that repeats is not read by one call of that rule, since an operator follows
each of its parts but the last. What the parser does with such a phrase is to read its first part
and to come back to the head of its loop after each operator. `Reaches` says that, and asks only
that the next token does not go on with the operand in front of it.
-/

namespace Lox

/-! ## Parsers in front of known tokens -/

namespace Parser

/-- The parser in front of these tokens, after which the text ends on `line`. -/
def facing (tokens : List Token) (line depth : Nat) : Parser :=
  ⟨tokens.headD (Token.atEnd line), ⟨tokens.tail, .finished line⟩, depth⟩

/-- The parser looks at a token that does not go on with a phrase of the rule. -/
def Stops (p : Parser) (rule : Rule) : Prop := p.current.kind ∉ rule.continuations

end Parser

open Lox.Parser (facing)

namespace Parse

variable {t : Token} {ts rest : List Token} {line depth : Nat}

theorem advance_facing :
    advance (facing (t :: ts) line depth) = .ok t (facing ts line depth) := by
  cases ts <;> rfl

theorem accept?_facing {kinds : List TokenKind} (h : t.kind ∈ kinds) :
    accept? kinds (facing (t :: ts) line depth) = .ok (some t) (facing ts line depth) :=
  accept?_eq_ok.mpr (Or.inr ⟨h, t, rfl, advance_facing⟩)

theorem accept?_none {kinds : List TokenKind} {p : Parser} (h : p.current.kind ∉ kinds) :
    accept? kinds p = .ok none p :=
  accept?_eq_ok.mpr (Or.inl ⟨h, rfl, rfl⟩)

theorem expect_facing {expected : Expectation} (h : t.kind = expected.kind) :
    expect expected (facing (t :: ts) line depth) = .ok t (facing ts line depth) :=
  expect_eq_ok.mpr ⟨h, advance_facing⟩

theorem nested_facing {α : Type} {level : Level} {opener : Nat} {part : Level → Parse α} {a : α}
    (h : part level (facing ts line (depth + 1)) = .ok a (facing rest line (depth + 1))) :
    nested (some level) opener part (facing ts line depth) = .ok a (facing rest line depth) :=
  nested_eq_ok.mpr ⟨level, _, rfl, h, rfl⟩

end Parse

/-! ## The parser of a rule -/

namespace Rule

def parser (inner : Option Parse.Level) : Rule → Parse Expr
  | assignment => Parse.assignment inner
  | disjunction => Parse.disjunction inner
  | conjunction => Parse.conjunction inner
  | equality => Parse.equality inner
  | comparison => Parse.comparison inner
  | term => Parse.term inner
  | factor => Parse.factor inner
  | unary => Parse.unary inner
  | call => Parse.call inner
  | primary => Parse.primary inner

/-- Whether a rule repeats something behind a phrase of the next tighter rule. -/
def repeats : Rule → Bool
  | assignment => false
  | unary => false
  | primary => false
  | _ => true

/-- What a rule repeats over phrases of the rule `next`. -/
def extend? (inner : Option Parse.Level) (rule next : Rule) : Expr → Parse (Option Expr) :=
  match rule with
  | call => Parse.callOrGet? inner
  | rule => Parse.operation? rule.operators rule.combine (next.parser inner)

variable {rule next : Rule} {inner : Option Parse.Level}

theorem parser_eq_grow (ht : rule.tighter? = some next) (hr : rule.repeats = true) :
    rule.parser inner = next.parser inner >>= Parse.grow (rule.extend? inner next) := by
  cases rule <;> cases ht <;> first | rfl | cases hr

/-- A rule with an operator repeats it. -/
theorem repeats_of_operator {kind : TokenKind} (hk : kind ∈ rule.operators) :
    rule.repeats = true := by
  cases rule <;> first | rfl | cases hk

theorem extend?_of_operator {kind : TokenKind} (hk : kind ∈ rule.operators) :
    rule.extend? inner next
      = Parse.operation? rule.operators rule.combine (next.parser inner) := by
  cases rule <;> first | rfl | cases hk

end Rule

namespace Parse

variable {rule next : Rule} {ts us rest : List Token} {e first : Expr} {room line depth : Nat}

/-- Where nothing goes on with a phrase of a rule, its loop ends. -/
theorem extend?_none {inner : Option Level} {p : Parser} (hr : rule.repeats = true)
    (hs : p.Stops rule) : rule.extend? inner next e p = .ok none p := by
  by_cases hc : rule = .call
  · subst hc
    have h₁ : p.current.kind ∉ [TokenKind.leftParen] :=
      fun h => hs (by simp [List.mem_singleton.mp h, Rule.continuations])
    have h₂ : p.current.kind ∉ [TokenKind.dot] :=
      fun h => hs (by simp [List.mem_singleton.mp h, Rule.continuations])
    refine Step.bind_ok (accept?_none h₁) ?_
    exact Step.bind_ok (accept?_none h₂) rfl
  · have h : p.current.kind ∉ rule.operators :=
      fun h => hs (Rule.operators_subset_continuations h)
    have hx : rule.extend? inner next
        = operation? rule.operators rule.combine (next.parser inner) := by
      cases rule <;> first | rfl | exact absurd rfl hc
    rw [hx]
    exact Step.bind_ok (accept?_none h) rfl

/-! ## Loops -/

/-- `n` turns of a loop lead from one expression and parser to another. -/
inductive Grows (extend? : Expr → Parse (Option Expr)) :
    Nat → Expr → Parser → Expr → Parser → Prop where
  | refl {e : Expr} {p : Parser} : Grows extend? 0 e p e p
  | snoc {n : Nat} {e e₁ e₂ : Expr} {p p₁ p₂ : Parser} :
      Grows extend? n e p e₁ p₁ → extend? e₁ p₁ = .ok (some e₂) p₂ →
      Grows extend? (n + 1) e p e₂ p₂

theorem growOver_of_grows {extend? : Expr → Parse (Option Expr)} {n : Nat} {e e' : Expr}
    {p p' : Parser} (h : Grows extend? n e p e' p') {bound : List Token}
    (hn : n ≤ bound.length) :
    growOver extend? bound e p = growOver extend? (bound.drop n) e' p' := by
  induction h with
  | refl => rfl
  | @snoc n e e₁ e₂ p p₁ p₂ _ hx ih =>
    rw [ih (by omega), List.drop_eq_getElem_cons (by omega)]
    exact Step.bind_of_ok hx

theorem growOver_stop {extend? : Expr → Parse (Option Expr)} {e : Expr} {p : Parser}
    (h : extend? e p = .ok none p) (bound : List Token) :
    growOver extend? bound e p = .ok e p := by
  cases bound with
  | nil => rfl
  | cons _ bound => exact Step.bind_ok h rfl

/-- A loop makes all its turns, because each of them passes a token. -/
theorem grow_of_grows {extend? : Expr → Parse (Option Expr)} {n : Nat} {e e' : Expr}
    {p' : Parser} (h : Grows extend? n e (facing (us ++ rest) line depth) e' p')
    (hn : n ≤ us.length) (hstop : extend? e' p' = .ok none p') :
    grow extend? e (facing (us ++ rest) line depth) = .ok e' p' := by
  -- the bound of the loop is the number of tokens left, the current one included
  have hlen : n ≤ ((facing (us ++ rest) line depth).current ::
      (facing (us ++ rest) line depth).ahead.tokens).length := by
    show n ≤ (us ++ rest).tail.length + 1
    rw [List.length_tail, List.length_append]
    omega
  show growOver extend? _ e _ = _
  rw [growOver_of_grows h hlen, growOver_stop hstop]

end Parse

/-! ## Phrases that are accepted -/

/-- The parser of a rule makes `e` of `ts` in front of every token that does not go on with it. -/
def Accepts (rule : Rule) (ts : List Token) (e : Expr) : Prop :=
  ∀ (room line depth : Nat) (rest : List Token), e.Fits room →
    (facing rest line depth).Stops rule →
    rule.parser (Parse.inside room) (facing (ts ++ rest) line depth)
      = .ok e (facing rest line depth)

/-- The loop of a rule comes to stand behind `ts` with `e` in front of every token that does not
go on with its last part. -/
def Reaches (rule : Rule) (ts : List Token) (e : Expr) : Prop :=
  ∀ (next : Rule) (room line depth : Nat) (rest : List Token), rule.tighter? = some next →
    e.Fits room → (facing rest line depth).Stops next →
    ∃ first us n, n ≤ us.length
      ∧ next.parser (Parse.inside room) (facing (ts ++ rest) line depth)
        = .ok first (facing (us ++ rest) line depth)
      ∧ Parse.Grows (rule.extend? (Parse.inside room) next) n first
        (facing (us ++ rest) line depth) e (facing rest line depth)

namespace Parse

variable {rule next : Rule} {ts us rest : List Token} {e : Expr}

theorem stops_tighter {p : Parser} (ht : rule.tighter? = some next) (h : p.Stops rule) :
    p.Stops next := fun hk => h (Rule.continuations_of_tighter ht hk)

theorem stops_facing {t : Token} {line depth : Nat} (h : t.kind ∉ rule.continuations) :
    (facing (t :: rest) line depth).Stops rule := h

theorem accepts_of_reaches (ht : rule.tighter? = some next) (hr : rule.repeats = true)
    (h : Reaches rule ts e) : Accepts rule ts e := by
  intro room line depth rest he hs
  -- the first part is read, the loop is followed, and then nothing goes on
  obtain ⟨first, us, n, hn, hfirst, hgrows⟩ :=
    h next room line depth rest ht he (stops_tighter ht hs)
  rw [Rule.parser_eq_grow ht hr, Step.bind_of_ok hfirst]
  exact grow_of_grows hgrows hn (extend?_none hr hs)

theorem reaches_of_tighter (ht : rule.tighter? = some next) (h : Accepts next ts e) :
    Reaches rule ts e := by
  intro next' room line depth rest ht' he hs
  obtain rfl : next = next' := Option.some.inj (ht.symm.trans ht')
  exact ⟨e, [], 0, Nat.le_refl _, h room line depth rest he hs, .refl⟩

/-- One more turn of the loop. -/
theorem reaches_step {longer : Expr} {t : Token} (h : Reaches rule ts e)
    (hfits : ∀ room, longer.Fits room → e.Fits room)
    (hstop : ∀ next, rule.tighter? = some next → t.kind ∉ next.continuations)
    (hstep : ∀ next room line depth rest, rule.tighter? = some next → longer.Fits room →
      (facing rest line depth).Stops next →
      rule.extend? (inside room) next e (facing (t :: us ++ rest) line depth)
        = .ok (some longer) (facing rest line depth)) :
    Reaches rule (ts ++ t :: us) longer := by
  intro next room line depth rest ht he hs
  -- `t` stops the part in front of it, so the loop comes to stand there
  obtain ⟨first, vs, n, hn, hfirst, hgrows⟩ := h next room line depth (t :: us ++ rest) ht
    (hfits room he) (stops_facing (hstop next ht))
  refine ⟨first, vs ++ t :: us, n + 1, ?_, ?_, ?_⟩
  · rw [List.length_append, List.length_cons]; omega
  · rw [List.append_assoc, List.append_assoc]; exact hfirst
  · rw [List.append_assoc]
    exact hgrows.snoc (hstep next room line depth rest ht he hs)

/-! ## Operators -/

theorem reaches_operation {left right : Expr} {operator : Token} (hl : Reaches rule ts left)
    (hk : operator.kind ∈ rule.operators) (ht : rule.tighter? = some next)
    (hr : Accepts next us right) :
    Reaches rule (ts ++ operator :: us) (rule.combine left operator right) := by
  refine reaches_step hl (fun room h => (Expr.fits_combine.mp h).1)
    (fun _ ht' => Rule.operator_not_continuation ht' hk) ?_
  intro next' room line depth rest ht' he hs
  obtain rfl : next = next' := Option.some.inj (ht.symm.trans ht')
  have hright := hr room line depth rest (Expr.fits_combine.mp he).2 hs
  rw [Rule.extend?_of_operator hk]
  exact Step.bind_ok (accept?_facing hk) (Step.bind_ok hright rfl)

/-! ## Prefix operators -/

theorem accepts_unary_of_call (h : Accepts .call ts e) (hd : Derives .call ts e) :
    Accepts .unary ts e := by
  intro room line depth rest he hs
  obtain ⟨t, ts, rfl, ht⟩ := hd.starts
  have hcall := h room line depth rest he (stops_tighter rfl hs)
  exact Step.bind_ok (accept?_none (Rule.call_start_not_sign ht)) hcall

theorem accepts_unary {operator : Token} {right : Expr}
    (hk : operator.kind ∈ TokenKind.signs) (h : Accepts .unary ts right) :
    Accepts .unary (operator :: ts) (.unary operator right) := by
  intro room line depth rest he hs
  obtain ⟨n, rfl⟩ := he.exists_inside (by rw [Expr.nesting]; omega)
  have hright := h n line (depth + 1) rest (Expr.fits_unary.mp he) hs
  exact Step.bind_ok (accept?_facing hk) (Step.bind_ok (nested_facing hright) rfl)

/-- What is accepted as a call is accepted at every looser level up to the disjunction. -/
theorem accepts_disjunction_of_call (h : Accepts .call ts e) (hd : Derives .call ts e) :
    Accepts .disjunction ts e := by
  have hunary := accepts_unary_of_call h hd
  have hfactor : Accepts .factor ts e := accepts_of_reaches rfl rfl (reaches_of_tighter rfl hunary)
  have hterm : Accepts .term ts e := accepts_of_reaches rfl rfl (reaches_of_tighter rfl hfactor)
  have hcomparison : Accepts .comparison ts e :=
    accepts_of_reaches rfl rfl (reaches_of_tighter rfl hterm)
  have hequality : Accepts .equality ts e :=
    accepts_of_reaches rfl rfl (reaches_of_tighter rfl hcomparison)
  have hconjunction : Accepts .conjunction ts e :=
    accepts_of_reaches rfl rfl (reaches_of_tighter rfl hequality)
  exact accepts_of_reaches rfl rfl (reaches_of_tighter rfl hconjunction)

/-! ## Calls and properties -/

/-- A token that closes something does not go on with an expression. -/
theorem closing_stops {closing : Token} {line depth : Nat} (hc : closing.kind = .rightParen) :
    (facing (closing :: rest) line depth).Stops .assignment :=
  stops_facing (by simp [hc, Rule.continuations])

/-- Arguments are read up to a token that does not go on with the last of them and is no comma. -/
theorem argumentsUpTo_accepts {n line depth : Nat} {arguments : List (List Token × Expr)}
    {count : Nat} (hs : Separated (arguments.map Prod.fst) ts) (hne : arguments ≠ [])
    (ha : ∀ a ∈ arguments, Accepts .assignment a.1 a.2 ∧ a.2.Fits n)
    (hcount : arguments.length ≤ count) (hstop : (facing rest line depth).Stops .assignment)
    (hcomma : (facing rest line depth).current.kind ≠ .comma) :
    argumentsUpTo (assignment (inside n)) count (facing (ts ++ rest) line depth)
      = .ok (arguments.map Prod.snd) (facing rest line depth) := by
  induction arguments generalizing ts count with
  | nil => exact absurd rfl hne
  | cons a arguments ih =>
    rw [List.length_cons] at hcount
    obtain ⟨count, rfl⟩ : ∃ m, count = m + 1 := ⟨count - 1, by omega⟩
    obtain ⟨haccepts, hfits⟩ := ha a (List.mem_cons_self ..)
    cases arguments with
    | nil =>
        cases hs
        have hfirst := haccepts n line depth rest hfits hstop
        have hlast : accept? [.comma] (facing rest line depth)
            = .ok none (facing rest line depth) :=
          accept?_none fun hc => hcomma (List.mem_singleton.mp hc)
        exact Step.bind_ok hfirst (Step.bind_ok hlast rfl)
    | cons b arguments =>
        cases hs with
        | @more _ us _ _ comma hcomma hs =>
          have hfirst := haccepts n line depth (comma :: (us ++ rest)) hfits
            (stops_facing (by simp [hcomma, Rule.continuations]))
          have hlen : (b :: arguments).length ≤ count := by omega
          have hlater := ih hs (by simp) (fun c hc => ha c (List.mem_cons_of_mem _ hc)) hlen
          have hpass : accept? [.comma] (facing (comma :: (us ++ rest)) line depth)
              = .ok (some comma) (facing (us ++ rest) line depth) :=
            accept?_facing (List.mem_singleton.mpr hcomma)
          rw [List.append_assoc]
          refine Step.bind_ok hfirst ?_
          exact Step.bind_ok hpass (Step.bind_ok hlater rfl)

/-- The token behind a list closes it, or it does not go on with the list. -/
theorem arguments_accepts {n line depth : Nat} {operand : Parse Expr}
    {arguments : List (List Token × Expr)} (hs : Separated (arguments.map Prod.fst) ts)
    (hd : ∀ a ∈ arguments, Derives .assignment a.1 a.2)
    (ha : ∀ a ∈ arguments, Accepts .assignment a.1 a.2 ∧ a.2.Fits n)
    (hcount : arguments.length ≤ maxArguments)
    (hend : (facing rest line depth).current.kind = .rightParen
      ∨ arguments ≠ [] ∧ (facing rest line depth).Stops .assignment
        ∧ (facing rest line depth).current.kind ≠ .comma) :
    Parse.arguments ⟨assignment (inside n), operand⟩ (facing (ts ++ rest) line depth)
      = .ok (arguments.map Prod.snd) (facing rest line depth) := by
  show (if _ then _ else _ : Parse (List Expr)) _ = _
  cases arguments with
  | nil =>
      cases hs
      rcases hend with hclosing | ⟨hne, _, _⟩
      · exact congrFun (if_pos hclosing) _
      · exact absurd rfl hne
  | cons a arguments =>
    -- an argument does not start with the token that closes the list
    have hfirst : ∃ t us, ts = t :: us ∧ t.kind ≠ .rightParen := by
      obtain ⟨t, us, hus, ht⟩ := (hd a (List.mem_cons_self ..)).starts
      have hk := Rule.start_not_closing ht
      cases arguments with
      | nil => cases hs; exact ⟨t, us, hus, hk⟩
      | cons b arguments => cases hs; exact ⟨t, _, by rw [hus]; rfl, hk⟩
    obtain ⟨t, us, rfl, hk⟩ := hfirst
    refine (congrFun (if_neg hk) _).trans ?_
    rcases hend with hclosing | ⟨_, hstop, hcomma⟩
    · have hstop : (facing rest line depth).Stops .assignment := by
        intro hc
        simp [hclosing, Rule.continuations] at hc
      exact argumentsUpTo_accepts hs (by simp) ha hcount hstop (by simp [hclosing])
    · exact argumentsUpTo_accepts hs (by simp) ha hcount hstop hcomma

theorem reaches_call {callee : Expr} {opening closing : Token}
    {arguments : List (List Token × Expr)} (h : Reaches .call ts callee)
    (hopening : opening.kind = .leftParen) (hclosing : closing.kind = .rightParen)
    (hs : Separated (arguments.map Prod.fst) us)
    (hd : ∀ a ∈ arguments, Derives .assignment a.1 a.2)
    (ha : ∀ a ∈ arguments, Accepts .assignment a.1 a.2) :
    Reaches .call (ts ++ opening :: (us ++ [closing]))
      (.call callee (arguments.map Prod.snd)) := by
  refine reaches_step h ?_ (fun next ht => by cases ht; simp [Rule.continuations]) ?_
  · intro room he
    obtain ⟨n, rfl⟩ := he.exists_inside (by rw [Expr.nesting]; omega)
    exact (Expr.fits_call.mp he).1
  · intro next room line depth rest ht he hstop
    obtain ⟨n, rfl⟩ := he.exists_inside (by rw [Expr.nesting]; omega)
    obtain ⟨-, hlen, hfits⟩ := Expr.fits_call.mp he
    rw [List.length_map] at hlen
    have hlist : Parse.arguments ⟨assignment (inside n), unary (inside n)⟩
        (facing (us ++ closing :: rest) line (depth + 1))
          = .ok (arguments.map Prod.snd) (facing (closing :: rest) line (depth + 1)) :=
      arguments_accepts hs hd (fun a hm => ⟨ha a hm, hfits _ (List.mem_map_of_mem hm)⟩) hlen
        (Or.inl hclosing)
    have hopen : accept? [.leftParen] (facing (opening :: (us ++ [closing]) ++ rest) line depth)
        = .ok (some opening) (facing (us ++ closing :: rest) line depth) := by
      rw [List.cons_append, List.append_assoc]
      exact accept?_facing (List.mem_singleton.mpr hopening)
    have hclose : expect .closedArguments (facing (closing :: rest) line depth)
        = .ok closing (facing rest line depth) := expect_facing hclosing
    cases ht
    refine Step.bind_ok hopen (Step.bind_ok rfl ?_)
    refine Step.bind_ok (nested_facing hlist) ?_
    exact Step.bind_ok hclose rfl

theorem reaches_get {object : Expr} {dot name : Token} (h : Reaches .call ts object)
    (hdot : dot.kind = .dot) (hname : name.kind = .identifier) :
    Reaches .call (ts ++ [dot, name]) (.get object name) := by
  refine reaches_step h (fun room he => Expr.fits_get.mp he)
    (fun next ht => by cases ht; simp [Rule.continuations]) ?_
  intro next room line depth rest ht he hstop
  have hparen : accept? [.leftParen] (facing ([dot, name] ++ rest) line depth)
      = .ok none (facing ([dot, name] ++ rest) line depth) :=
    accept?_none (show dot.kind ∉ [.leftParen] by simp [hdot])
  have hpoint : accept? [.dot] (facing ([dot, name] ++ rest) line depth)
      = .ok (some dot) (facing (name :: rest) line depth) :=
    accept?_facing (List.mem_singleton.mpr hdot)
  have hread : expect .propertyName (facing (name :: rest) line depth)
      = .ok name (facing rest line depth) := expect_facing hname
  cases ht
  refine Step.bind_ok hparen (Step.bind_ok hpoint ?_)
  exact Step.bind_ok hread rfl

/-! ## What stands alone -/

theorem accepts_literal {token : Token} {value : Value} (hk : token.kind ∈ TokenKind.literals)
    (hv : token.literal = some value) : Accepts .primary [token] (.literal value) := by
  intro room line depth rest _ _
  have hpass : advance (facing ([token] ++ rest) line depth)
      = .ok token (facing rest line depth) := advance_facing
  have hread : (advance >>= fun t => pure (.literal (t.literal.getD .nil)) : Parse Expr)
      (facing ([token] ++ rest) line depth) = .ok (.literal value) (facing rest line depth) :=
    Step.bind_ok hpass (by rw [hv]; rfl)
  have hcur : (facing ([token] ++ rest) line depth).current = token := rfl
  refine Step.bind_ok rfl ?_
  rw [hcur]
  cases hkind : token.kind <;> rw [hkind] at hk
  case trueWord => exact hread
  case falseWord => exact hread
  case nilWord => exact hread
  case number => exact hread
  case string => exact hread
  all_goals simp [TokenKind.literals] at hk

theorem accepts_var {name : Token} (hk : name.kind = .identifier) :
    Accepts .primary [name] (.var name) := by
  intro room line depth rest _ _
  have hpass : advance (facing ([name] ++ rest) line depth)
      = .ok name (facing rest line depth) := advance_facing
  have hcur : (facing ([name] ++ rest) line depth).current = name := rfl
  refine Step.bind_ok rfl ?_
  rw [hcur, hk]
  exact Step.bind_ok hpass rfl

theorem accepts_grouping {opening closing : Token} {inner : Expr}
    (hopening : opening.kind = .leftParen) (h : Accepts .assignment ts inner)
    (hclosing : closing.kind = .rightParen) :
    Accepts .primary (opening :: (ts ++ [closing])) (.grouping inner) := by
  intro room line depth rest he _
  obtain ⟨n, rfl⟩ := he.exists_inside (by rw [Expr.nesting]; omega)
  have hinner := h n line (depth + 1) (closing :: rest) (Expr.fits_grouping.mp he)
    (closing_stops hclosing)
  have hopen : advance (facing (opening :: (ts ++ [closing]) ++ rest) line depth)
      = .ok opening (facing (ts ++ closing :: rest) line depth) := by
    rw [List.cons_append, List.append_assoc]
    exact advance_facing
  have hclose : expect .closedGrouping (facing (closing :: rest) line depth)
      = .ok closing (facing rest line depth) := expect_facing hclosing
  have hcur : (facing (opening :: (ts ++ [closing]) ++ rest) line depth).current = opening := rfl
  refine Step.bind_ok rfl ?_
  rw [hcur, hopening]
  refine Step.bind_ok hopen ?_
  refine Step.bind_ok (nested_facing hinner) ?_
  exact Step.bind_ok hclose rfl

/-! ## Assignments -/

theorem accepts_assignment_of_disjunction (h : Accepts .disjunction ts e) :
    Accepts .assignment ts e := by
  intro room line depth rest he hs
  have hread := h room line depth rest he (stops_tighter rfl hs)
  have hk : (facing rest line depth).current.kind ∉ [TokenKind.equal] :=
    fun hm => hs (by simp [List.mem_singleton.mp hm, Rule.continuations])
  exact Step.bind_ok hread (Step.bind_ok (accept?_none hk) rfl)

/-- What can be assigned to is read as an ordinary expression before its `=` is met. -/
theorem assignment_reads_target {target longer value : Expr} {equals : Token} {n line depth : Nat}
    (ht : Accepts .disjunction ts target) (htarget : target.Fits (n + 1))
    (hequals : equals.kind = .equal) (hv : Accepts .assignment us value) (hvalue : value.Fits n)
    (hs : (facing rest line depth).Stops .assignment)
    (hmake : ∀ p : Parser, (match target with
      | .var target => return .assign target equals value
      | .get object name => return .set object name value
      | _ => throw (.invalidAssignmentTarget equals.line) : Parse Expr) p = .ok longer p) :
    assignment (inside (n + 1)) (facing (ts ++ equals :: us ++ rest) line depth)
      = .ok longer (facing rest line depth) := by
  -- `=` goes on with no disjunction, so the left side ends in front of it
  have hleft := ht (n + 1) line depth (equals :: us ++ rest) htarget
    (stops_facing (by simp [hequals, Rule.continuations]))
  have hpass : accept? [.equal] (facing (equals :: us ++ rest) line depth)
      = .ok (some equals) (facing (us ++ rest) line depth) :=
    accept?_facing (List.mem_singleton.mpr hequals)
  have hright := hv n line (depth + 1) rest hvalue hs
  rw [List.append_assoc]
  refine Step.bind_ok hleft (Step.bind_ok hpass ?_)
  exact Step.bind_ok (nested_facing hright) (hmake _)

theorem accepts_assign {name equals : Token} {value : Expr} (hname : name.kind = .identifier)
    (hequals : equals.kind = .equal) (h : Accepts .assignment ts value) :
    Accepts .assignment (name :: equals :: ts) (.assign name equals value) := by
  intro room line depth rest he hs
  obtain ⟨n, rfl⟩ := he.exists_inside (by rw [Expr.nesting]; omega)
  have htarget : Derives .call [name] (.var name) := .tighter rfl (.var hname)
  have hcall : Accepts .call [name] (.var name) :=
    accepts_of_reaches rfl rfl (reaches_of_tighter rfl (accepts_var hname))
  have hleft := accepts_disjunction_of_call hcall htarget
  have hread : assignment (inside (n + 1)) (facing ([name] ++ equals :: ts ++ rest) line depth)
      = .ok (.assign name equals value) (facing rest line depth) :=
    assignment_reads_target hleft Expr.fits_var hequals h (Expr.fits_assign.mp he) hs
      (fun _ => rfl)
  exact hread

theorem accepts_set {os : List Token} {object value : Expr} {dot name equals : Token}
    (hd : Derives .call os object) (ho : Reaches .call os object) (hdot : dot.kind = .dot)
    (hname : name.kind = .identifier) (hequals : equals.kind = .equal)
    (h : Accepts .assignment ts value) :
    Accepts .assignment (os ++ dot :: name :: equals :: ts) (.set object name value) := by
  intro room line depth rest he hs
  obtain ⟨n, rfl⟩ := he.exists_inside (by rw [Expr.nesting]; omega)
  obtain ⟨hfits, hvalue⟩ := Expr.fits_set.mp he
  have htarget : Derives .call (os ++ [dot, name]) (.get object name) := .get hd hdot hname
  have hcall : Accepts .call (os ++ [dot, name]) (.get object name) :=
    accepts_of_reaches rfl rfl (reaches_get ho hdot hname)
  have hleft := accepts_disjunction_of_call hcall htarget
  have hread : assignment (inside (n + 1))
      (facing (os ++ [dot, name] ++ equals :: ts ++ rest) line depth)
      = .ok (.set object name value) (facing rest line depth) :=
    assignment_reads_target hleft (Expr.fits_get.mpr hfits) hequals h hvalue hs (fun _ => rfl)
  have hwords : os ++ dot :: name :: equals :: ts ++ rest
      = os ++ [dot, name] ++ equals :: ts ++ rest := by simp
  rw [hwords]
  exact hread

end Parse

/-! ## Every derivation is followed -/

open Parse in
/-- **The parser of a rule makes of a phrase what the grammar derives from it.** The induction
carries what loops need along with it. -/
theorem derives_accepts {rule : Rule} {ts : List Token} {e : Expr} (h : Derives rule ts e) :
    Accepts rule ts e ∧ (rule.repeats = true → Reaches rule ts e) := by
  induction h with
  | @tighter rule next ts e ht hd ih =>
      have hacc : Accepts rule ts e := by
        cases rule with
        | assignment => cases ht; exact accepts_assignment_of_disjunction ih.1
        | unary => cases ht; exact accepts_unary_of_call ih.1 hd
        | primary => cases ht
        | _ => exact accepts_of_reaches ht rfl (reaches_of_tighter ht ih.1)
      exact ⟨hacc, fun _ => reaches_of_tighter ht ih.1⟩
  | assign hname hequals _ ih =>
      exact ⟨accepts_assign hname hequals ih.1, fun h => Bool.noConfusion h⟩
  | set hobject hdot hname hequals _ ihobject ihvalue =>
      have hset := accepts_set hobject (ihobject.2 rfl) hdot hname hequals ihvalue.1
      exact ⟨hset, fun h => Bool.noConfusion h⟩
  | @operation rule next ls rs left right operator hl hk ht hr ihl ihr =>
      have hrepeats := Rule.repeats_of_operator hk
      have hreaches := reaches_operation (ihl.2 hrepeats) hk ht ihr.1
      exact ⟨accepts_of_reaches ht hrepeats hreaches, fun _ => hreaches⟩
  | unary hk _ ih => exact ⟨accepts_unary hk ih.1, fun h => Bool.noConfusion h⟩
  | call _ hopening hd hs hclosing ih iha =>
      have hreaches := reaches_call (ih.2 rfl) hopening hclosing hs hd (fun a hm => (iha a hm).1)
      exact ⟨accepts_of_reaches rfl rfl hreaches, fun _ => hreaches⟩
  | get _ hdot hname ih =>
      have hreaches := reaches_get (ih.2 rfl) hdot hname
      exact ⟨accepts_of_reaches rfl rfl hreaches, fun _ => hreaches⟩
  | grouping hopening _ hclosing ih =>
      exact ⟨accepts_grouping hopening ih.1 hclosing, fun h => Bool.noConfusion h⟩
  | literal hk hv => exact ⟨accepts_literal hk hv, fun h => Bool.noConfusion h⟩
  | var hk => exact ⟨accepts_var hk, fun h => Bool.noConfusion h⟩

/-! ## Texts -/

theorem Parser.start_facing {text : String} {tokens : List Token} {line : Nat}
    (h : Scan.ofText text = ⟨tokens, .finished line⟩) :
    Parser.start text = .ok (facing tokens line 0) := by
  unfold Parser.start
  rw [h]
  cases tokens <;> rfl

/-- An expression within the limits that derives from all tokens of a text is what it is parsed
as. -/
theorem parse_eq_of_derives {text : String} {tokens : List Token} {line : Nat} {e : Expr}
    (hs : Scan.ofText text = ⟨tokens, .finished line⟩) (hd : Derives .assignment tokens e)
    (hfits : e.Fits maxNesting) : parse text = .ok e := by
  have hread : Parse.expression (facing tokens line 0) = .ok e (facing [] line 0) := by
    have hstop : (facing [] line 0).Stops .assignment := by
      show TokenKind.endOfText ∉ Rule.continuations .assignment
      simp [Rule.continuations]
    have hall := (derives_accepts hd).1 maxNesting line 0 [] hfits hstop
    rwa [List.append_nil] at hall
  have hend : Parse.expect .endOfExpression (facing [] line 0)
      = .ok (Token.atEnd line) (facing [] line 0) := Parse.expect_eq_ok.mpr ⟨rfl, rfl⟩
  have hwhole : Parse.whole (facing tokens line 0) = .ok e (facing [] line 0) :=
    Step.bind_ok hread (Step.bind_ok hend rfl)
  exact parse_eq_ok.mpr ⟨_, _, Parser.start_facing hs, hwhole⟩

/--
**What derives from the tokens of a text is what the text is parsed as.**

So within the limits a text denotes one expression at most, and it denotes one whenever the
grammar derives one, up to the last level and the last argument.
-/
theorem derives_parse {text : String} {tokens : List Token} {last : Token} {e : Expr}
    (ht : tokenize text = .ok (tokens ++ [last])) (hd : Derives .assignment tokens e)
    (ha : e.arity ≤ maxArguments) (hn : e.nesting ≤ maxNesting) :
    parse text = .ok e
      ∧ ∀ e', Derives .assignment tokens e' → e'.arity ≤ maxArguments →
        e'.nesting ≤ maxNesting → e' = e := by
  obtain ⟨tokens', line, hs, hl⟩ := tokenize_eq_ok.mp ht
  obtain ⟨rfl, -⟩ := List.append_inj' hl rfl
  have hparse := parse_eq_of_derives hs hd ⟨hn, ha⟩
  -- another expression is parsed from the same text, so it is the same one
  refine ⟨hparse, fun e' hd' ha' hn' => ?_⟩
  have hparse' := parse_eq_of_derives hs hd' ⟨hn', ha'⟩
  rw [hparse] at hparse'
  exact (Except.ok.inj hparse').symm

/-- As many signs as there may be levels, in front of a variable. -/
theorem derives_parse_signs :
    let bang : Token := ⟨.bang, "!", none, 1⟩
    let name : Token := ⟨.identifier, "a", none, 1⟩
    let tokens := List.replicate maxNesting bang ++ [name]
    let e := Nat.repeat (Expr.unary bang) maxNesting (.var name)
    tokenize "!!!!!!!!!!!!!!!!!!!!!!!!!!!!!!!!!!!!!!!!!!!!!!!!a" = .ok (tokens ++ [Token.atEnd 1])
      ∧ Derives .assignment tokens e ∧ e.arity ≤ maxArguments ∧ e.nesting ≤ maxNesting
      ∧ parse "!!!!!!!!!!!!!!!!!!!!!!!!!!!!!!!!!!!!!!!!!!!!!!!!a" = .ok e
      ∧ ∀ e', Derives .assignment tokens e' → e'.arity ≤ maxArguments →
        e'.nesting ≤ maxNesting → e' = e := by
  intro bang name tokens e
  have hscan : Scan.ofText "!!!!!!!!!!!!!!!!!!!!!!!!!!!!!!!!!!!!!!!!!!!!!!!!a"
      = ⟨tokens, .finished 1⟩ := rfl
  have hsigns : ∀ n, Derives .unary (List.replicate n bang ++ [name])
      (Nat.repeat (Expr.unary bang) n (.var name)) := by
    intro n
    induction n with
    | zero => exact .tighter rfl (.tighter rfl (.var rfl))
    | succ n ih => exact .unary (List.mem_cons_self ..) ih
  have hterm : Derives .term tokens e := .tighter rfl (.tighter rfl (hsigns maxNesting))
  have hequality : Derives .equality tokens e := .tighter rfl (.tighter rfl hterm)
  have hall : Derives .assignment tokens e := .tighter rfl (.tighter rfl (.tighter rfl hequality))
  have ht := tokenize_eq_ok.mpr ⟨tokens, 1, hscan, rfl⟩
  have ha : e.arity ≤ maxArguments := by decide
  have hn : e.nesting ≤ maxNesting := by decide
  exact ⟨ht, hall, ha, hn, derives_parse ht hall ha hn⟩

end Lox
