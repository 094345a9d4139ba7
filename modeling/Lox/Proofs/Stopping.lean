import Lox.Proofs.ParserComplete
import Lox.Proofs.ParserSound

/-!
# Where a parser stops

A phrase may be longer than what a parser has read of it, if the parser stops too early. It does
not: a rule that succeeds leaves the parser at a token that does not go on with the phrase. For a
loop this has two reasons. The token is none of the loop's own operators, and the operand in front
of it has stopped there before, so it is none of the tighter ones either.

A loop ends as well when it has made as many turns as there were tokens. Then no token is left.
-/

namespace Lox

open Lox.Parser (Stops)

namespace Rule

variable {rule next : Rule} {kind : TokenKind}

/-- What goes on with a repetition is one of its operators, or goes on with its last operand. -/
theorem continuation_cases (h : rule.tighter? = some next) (ho : rule.operators ≠ [])
    (hk : kind ∈ rule.continuations) : kind ∈ rule.operators ∨ kind ∈ next.continuations := by
  cases rule <;> cases h <;>
    first | exact absurd rfl ho | (revert hk; cases kind <;> decide)

theorem end_not_continuation (rule : Rule) : TokenKind.endOfText ∉ rule.continuations := by
  cases rule <;> decide

end Rule

/-- A parser that comes to stand in front of a token that does not go on with what it has read. -/
def Settles (rule : Rule) (read : Parse Expr) : Prop :=
  ∀ (p p' : Parser) (e : Expr), p.Ready → read p = .ok e p' → p'.Stops rule

/-- A step of a loop that ends it in front of such a token, and otherwise comes to stand where its
last operand has. -/
def ExtendSettles (rule next : Rule) (extend? : Expr → Parse (Option Expr)) : Prop :=
  ∀ (p p' : Parser) (e : Expr) (o : Option Expr), p.Ready → p.Stops next →
    extend? e p = .ok o p' → (o = none → p'.Stops rule) ∧ (o ≠ none → p'.Stops next)

namespace Parse

variable {rule next : Rule} {room : Nat} {inner : Option Level} {p p' : Parser} {e : Expr}
  {ts : List Token}

/-- Nothing goes on where no token is left. -/
theorem stops_at_end (h : p.pending = []) : p.Stops rule := by
  have hend : p.current.kind = .endOfText := by
    by_cases hk : p.current.kind = .endOfText
    · exact hk
    · rw [Parser.pending, if_neg hk] at h
      cases h
  unfold Stops
  rw [hend]
  exact rule.end_not_continuation

/-! ## Loops -/

theorem growOver_settles {extend? : Expr → Parse (Option Expr)} (hx : Extends rule room extend?)
    (hs : ExtendSettles rule next extend?) (bound : List Token) (hp : p.Ready)
    (hstop : p.Stops next) (hbound : p.pending.length ≤ bound.length) {e' : Expr}
    (h : growOver extend? bound e p = .ok e' p') : p'.Stops rule := by
  induction bound generalizing p e with
  | nil =>
    obtain ⟨rfl, rfl⟩ := Step.pure_eq_ok.mp h
    exact stops_at_end (List.eq_nil_of_length_eq_zero (Nat.le_zero.mp hbound))
  | cons _ bound ih =>
    obtain ⟨o, p₁, h₁, h₂⟩ := Step.bind_eq_ok.mp h
    obtain ⟨hnone, hsome⟩ := hs _ _ _ _ hp hstop h₁
    rcases hx _ _ _ _ hp h₁ with ⟨rfl, rfl⟩ | ⟨longer, us, rfl, hne, hus, _⟩
    · obtain ⟨rfl, rfl⟩ := Step.pure_eq_ok.mp h₂
      exact hnone rfl
    · -- the turn has passed a token at least, so the bound suffices for the others
      have hpos := List.length_pos_iff.mpr hne
      rw [hus.pending, List.length_append, List.length_cons] at hbound
      exact ih hus.ready (hsome nofun) (by omega) h₂

theorem grow_settles {extend? : Expr → Parse (Option Expr)} {first : Parse Expr}
    (hfirst : Reads next room first ∧ Settles next first) (hx : Extends rule room extend?)
    (hs : ExtendSettles rule next extend?) : Settles rule (first >>= grow extend?) := by
  intro p p' e hp h
  obtain ⟨e₁, p₁, h₁, h₂⟩ := Step.bind_eq_ok.mp h
  obtain ⟨ts, hts, _⟩ := hfirst.1 _ _ _ hp h₁
  have hbound : p₁.pending.length ≤ (p₁.current :: p₁.ahead.tokens).length := by
    rw [Parser.pending]
    split
    · exact Nat.zero_le _
    · exact Nat.le_refl _
  exact growOver_settles hx hs _ hts.ready (hfirst.2 _ _ _ hp h₁) hbound h₂

theorem operation?_settles {operand : Parse Expr} (ht : rule.tighter? = some next)
    (ho : rule.operators ≠ []) (hs : Settles next operand) :
    ExtendSettles rule next (operation? rule.operators rule.combine operand) := by
  intro p p' left o hp hstop h
  obtain ⟨a, p₁, h₁, h₂⟩ := Step.bind_eq_ok.mp h
  rcases accept?_eq_ok.mp h₁ with ⟨hk, rfl, rfl⟩ | ⟨hk, operator, rfl, ha⟩
  · obtain ⟨rfl, rfl⟩ := Step.pure_eq_ok.mp h₂
    exact ⟨fun _ hc => (Rule.continuation_cases ht ho hc).elim hk hstop, fun hn => absurd rfl hn⟩
  · obtain ⟨_, hpass⟩ := advance_passes hp (fun he => operators_not_end rule (he ▸ hk)) ha
    obtain ⟨right, p₂, h₃, h₄⟩ := Step.bind_eq_ok.mp h₂
    obtain ⟨rfl, rfl⟩ := Step.pure_eq_ok.mp h₄
    exact ⟨nofun, fun _ => hs _ _ _ hpass.ready h₃⟩

/-- One level of left-associative operators. That it stops so rests on what it has read before. -/
theorem leftAssociative_settles {operand : Parse Expr} (ht : rule.tighter? = some next)
    (ho : rule.operators ≠ []) (h : Reads next room operand ∧ Settles next operand) :
    Reads rule room (leftAssociative rule.operators rule.combine operand)
      ∧ Settles rule (leftAssociative rule.operators rule.combine operand) :=
  ⟨leftAssociative_reads ht h.1,
    grow_settles h (operation?_extends ht h.1) (operation?_settles ht ho h.2)⟩

/-! ## The rules -/

/-- What a level inside reads ends so as well, if there is one. -/
def SettlesInside (inner : Option Level) : Prop :=
  ∀ level, inner = some level → Settles .assignment level.expression ∧ Settles .unary level.operand

/-- A part one level further in leaves the parser at the token where it has stopped. -/
theorem nested_settles {line : Nat} {part : Level → Parse Expr}
    (hpart : ∀ level, inner = some level → Settles rule (part level)) (hp : p.Ready)
    (h : nested inner line part p = .ok e p') : p'.Stops rule := by
  obtain ⟨level, p₁, hl, h₁, rfl⟩ := nested_eq_ok.mp h
  have hstop : p₁.Stops rule := hpart level hl _ _ _ (Parser.ready_atDepth hp) h₁
  exact hstop

theorem callOrGet?_settles : ExtendSettles .call .primary (callOrGet? inner) := by
  intro p p' e o hp _ h
  refine ⟨fun ho => ?_, fun _ => List.not_mem_nil⟩
  subst ho
  obtain ⟨paren, p₁, h₁, h₂⟩ := Step.bind_eq_ok.mp h
  rcases accept?_eq_ok.mp h₁ with ⟨hparen, rfl, rfl⟩ | ⟨_, opening, rfl, _⟩
  · obtain ⟨point, p₂, h₃, h₄⟩ := Step.bind_eq_ok.mp h₂
    rcases accept?_eq_ok.mp h₃ with ⟨hpoint, rfl, rfl⟩ | ⟨_, dot, rfl, _⟩
    · -- neither of the two tokens that go on with a call stands here
      obtain ⟨_, rfl⟩ := Step.pure_eq_ok.mp h₄
      intro hc
      rcases List.mem_cons.mp hc with hc | hc
      · exact hparen (List.mem_singleton.mpr hc)
      · exact hpoint hc
    · obtain ⟨name, p₃, _, h₆⟩ := Step.bind_eq_ok.mp h₄
      cases h₆
  · obtain ⟨_, _, _, h₃⟩ := Step.bind_eq_ok.mp h₂
    obtain ⟨es, p₂, _, h₅⟩ := Step.bind_eq_ok.mp h₃
    obtain ⟨closing, p₃, _, h₇⟩ := Step.bind_eq_ok.mp h₅
    cases h₇

theorem call_settles (hread : ReadsInside room inner) : Settles .call (call inner) :=
  grow_settles ⟨primary_reads hread, fun _ _ _ _ _ => List.not_mem_nil⟩
    (callOrGet?_extends hread) callOrGet?_settles

theorem unary_settles (hread : ReadsInside room inner) (hin : SettlesInside inner) :
    Settles .unary (unary inner) := by
  intro p p' e hp h
  obtain ⟨o, p₁, h₁, h₂⟩ := Step.bind_eq_ok.mp h
  rcases accept?_passes hp (by simp) h₁ with ⟨rfl, rfl⟩ | ⟨operator, rfl, _, hpass⟩
  · exact call_settles hread _ _ _ hp h₂
  · obtain ⟨right, p₂, h₃, h₄⟩ := Step.bind_eq_ok.mp h₂
    obtain ⟨rfl, rfl⟩ := Step.pure_eq_ok.mp h₄
    exact nested_settles (fun level hl => (hin level hl).2) hpass.ready h₃

theorem disjunction_settles (hread : ReadsInside room inner) (hin : SettlesInside inner) :
    Settles .disjunction (disjunction inner) := by
  have hfactor : Reads .factor room (factor inner) ∧ Settles .factor (factor inner) :=
    leftAssociative_settles rfl nofun ⟨unary_reads hread, unary_settles hread hin⟩
  have hterm : Reads .term room (term inner) ∧ Settles .term (term inner) :=
    leftAssociative_settles rfl nofun hfactor
  have hcomparison : Reads .comparison room (comparison inner)
      ∧ Settles .comparison (comparison inner) := leftAssociative_settles rfl nofun hterm
  have hequality : Reads .equality room (equality inner) ∧ Settles .equality (equality inner) :=
    leftAssociative_settles rfl nofun hcomparison
  have hconjunction : Reads .conjunction room (conjunction inner)
      ∧ Settles .conjunction (conjunction inner) := leftAssociative_settles rfl nofun hequality
  have hdisjunction : Reads .disjunction room (disjunction inner)
      ∧ Settles .disjunction (disjunction inner) := leftAssociative_settles rfl nofun hconjunction
  exact hdisjunction.2

theorem assignment_settles (hread : ReadsInside room inner) (hin : SettlesInside inner) :
    Settles .assignment (assignment inner) := by
  intro p p' e hp h
  obtain ⟨left, p₁, h₁, h₂⟩ := Step.bind_eq_ok.mp h
  obtain ⟨ts, hts, _⟩ := disjunction_reads hread _ _ _ hp h₁
  have hleft := disjunction_settles hread hin _ _ _ hp h₁
  obtain ⟨o, p₂, h₃, h₄⟩ := Step.bind_eq_ok.mp h₂
  rcases accept?_eq_ok.mp h₃ with ⟨hk, rfl, rfl⟩ | ⟨hk, equals, rfl, ha⟩
  · obtain ⟨rfl, rfl⟩ := Step.pure_eq_ok.mp h₄
    intro hc
    rcases List.mem_cons.mp hc with hc | hc
    · exact hk (List.mem_singleton.mpr hc)
    · exact hleft hc
  · have hend : p₁.current.kind ≠ .endOfText := fun he => absurd (he ▸ hk) (by decide)
    obtain ⟨_, hpass⟩ := advance_passes hts.ready hend ha
    obtain ⟨value, p₃, h₅, h₆⟩ := Step.bind_eq_ok.mp h₄
    have hvalue : p₃.Stops .assignment :=
      nested_settles (fun level hl => (hin level hl).1) hpass.ready h₅
    -- what is made of the two sides moves the parser no further
    split at h₆
    · obtain ⟨_, rfl⟩ := Step.pure_eq_ok.mp h₆
      exact hvalue
    · obtain ⟨_, rfl⟩ := Step.pure_eq_ok.mp h₆
      exact hvalue
    · cases h₆

/-! ## All levels -/

theorem inside_settles (room : Nat) : SettlesInside (inside room) := by
  induction room with
  | zero => intro level h; cases h
  | succ n ih =>
    intro level h
    cases h
    exact ⟨assignment_settles (inside_reads n) ih, unary_settles (inside_reads n) ih⟩

/-- **An expression is read up to a token that does not go on with it.** -/
theorem expression_settles (room : Nat) : Settles .assignment (assignment (inside room)) :=
  assignment_settles (inside_reads room) (inside_settles room)

/-- Arguments are read up to a token that does not go on with the last of them and is no comma. -/
theorem argumentsUpTo_settles {read : Parse Expr} (hread : Reads .assignment room read)
    (hs : Settles .assignment read) (count : Nat) {es : List Expr} (hp : p.Ready)
    (h : argumentsUpTo read count p = .ok es p') :
    p'.Stops .assignment ∧ p'.current.kind ≠ .comma := by
  induction count generalizing p es with
  | zero => cases h
  | succ count ih =>
    obtain ⟨e, p₁, h₁, h₂⟩ := Step.bind_eq_ok.mp h
    obtain ⟨ts, hts, _⟩ := hread _ _ _ hp h₁
    obtain ⟨o, p₂, h₃, h₄⟩ := Step.bind_eq_ok.mp h₂
    rcases accept?_eq_ok.mp h₃ with ⟨hk, rfl, rfl⟩ | ⟨hk, comma, rfl, ha⟩
    · obtain ⟨rfl, rfl⟩ := Step.pure_eq_ok.mp h₄
      exact ⟨hs _ _ _ hp h₁, fun hc => hk (List.mem_singleton.mpr hc)⟩
    · have hend : p₁.current.kind ≠ .endOfText := fun he => absurd (he ▸ hk) (by decide)
      obtain ⟨_, hpass⟩ := advance_passes hts.ready hend ha
      obtain ⟨rest, p₃, h₅, h₆⟩ := Step.bind_eq_ok.mp h₄
      obtain ⟨rfl, rfl⟩ := Step.pure_eq_ok.mp h₆
      exact ih hpass.ready h₅

/-- A list of arguments has ended, or it is followed by something that goes on with no argument. -/
theorem arguments_settles {level : Level} (hread : Reads .assignment room level.expression)
    (hs : Settles .assignment level.expression) {es : List Expr} (hp : p.Ready)
    (h : arguments level p = .ok es p') :
    p'.current.kind = .rightParen
      ∨ es ≠ [] ∧ p'.Stops .assignment ∧ p'.current.kind ≠ .comma := by
  have h' : (if p.current.kind = .rightParen then pure []
      else argumentsUpTo level.expression maxArguments : Parse (List Expr)) p = .ok es p' := h
  split at h' <;> rename_i hk
  · obtain ⟨_, rfl⟩ := Step.pure_eq_ok.mp h'
    exact Or.inl hk
  · obtain ⟨_, _, _, _, _, hne, _⟩ := argumentsUpTo_reads hread _ hp h'
    exact Or.inr ⟨hne, argumentsUpTo_settles hread hs _ hp h'⟩

end Parse

end Lox
