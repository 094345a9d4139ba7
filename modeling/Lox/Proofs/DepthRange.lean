import Lox.Proofs.ParserComplete
import Lox.Proofs.ParserSound
import Lox.Proofs.Watched

/-!
# How many levels are open

The number of open levels goes up and down with every part that stands further in. Is it always a
number that there may be? A watched parser shows every change. It does what the parser does that is
not watched, as long as those levels may still be opened that the limit leaves. This is what each
rule is shown to keep, by induction on the number of these levels.
-/

namespace Lox

/-! ## Moments -/

/-- No more levels are open than may be. One is opened only if this leaves one, and closed only if
one is open. -/
structure Moment.InRange (moment : Moment) : Prop where
  depth_le : moment.depth ≤ maxNesting
  descend : moment.act = .descend → moment.depth < maxNesting
  ascend : moment.act = .ascend → 0 < moment.depth

/-- Moments that follow each other, all of them in range: each finds as many levels open as the one
before it has left. -/
inductive Moment.Run : Nat → List Moment → Nat → Prop where
  | nil {depth : Nat} : Run depth [] depth
  | cons {act : Act} {depth last : Nat} {later : List Moment} :
      InRange ⟨act, depth⟩ → Run (act.depthAfter depth) later last →
      Run depth (⟨act, depth⟩ :: later) last

namespace Moment.Run

variable {depth middle last : Nat} {moments later : List Moment}

theorem one {act : Act} (h : InRange ⟨act, depth⟩) :
    Run depth [⟨act, depth⟩] (act.depthAfter depth) := .cons h .nil

theorem trans (h : Run depth moments middle) (h' : Run middle later last) :
    Run depth (moments ++ later) last := by
  induction h with
  | nil => exact h'
  | cons hrange _ ih => exact .cons hrange (ih h')

theorem inRange (h : Run depth moments last) : ∀ moment ∈ moments, moment.InRange := by
  induction h with
  | nil => nofun
  | cons hrange _ ih => exact List.forall_mem_cons.mpr ⟨hrange, ih⟩

end Moment.Run

/-- A call that succeeds leaves the depth of a parser as it found it. One that fails does not lower
it, and leaves no more levels open than may be. -/
inductive Parser.KeepsDepth {α : Type} (p : Parser) :
    EStateM.Result SyntaxError Parser α → Prop where
  | ok {a : α} {p' : Parser} : p'.depth = p.depth → KeepsDepth p (.ok a p')
  | error {error : SyntaxError} {p' : Parser} :
      p.depth ≤ p'.depth → p'.depth ≤ maxNesting → KeepsDepth p (.error error p')

namespace Watch

variable {α β : Type}

/-- A watched step came to the same as the step itself. It keeps the depth, and was in range at
every moment. -/
inductive Agrees (p : Parser) (seen : List Moment) :
    EStateM.Result SyntaxError Watched α → EStateM.Result SyntaxError Parser α → Prop where
  | ok {a : α} {p' : Parser} {later : List Moment} :
      p'.depth = p.depth → Moment.Run p.depth later p'.depth →
      Agrees p seen (.ok a ⟨p', seen ++ later⟩) (.ok a p')
  | error {error : SyntaxError} {p' : Parser} {later : List Moment} :
      p.depth ≤ p'.depth → p'.depth ≤ maxNesting → Moment.Run p.depth later p'.depth →
      Agrees p seen (.error error ⟨p', seen ++ later⟩) (.error error p')

/-- A watched step agrees with the step itself wherever `room` more levels may be opened. -/
def Watches (room : Nat) (watch : Watch α) (step : Parse α) : Prop :=
  ∀ (p : Parser) (seen : List Moment), p.depth + room = maxNesting →
    Agrees p seen (watch ⟨p, seen⟩) (step p)

/-- The levels that may still be opened are watched. -/
inductive WatchesInside : Nat → Option Level → Option Parse.Level → Prop where
  | none : WatchesInside 0 none none
  | some {room : Nat} {level : Level} {level' : Parse.Level} :
      Watches room level.expression level'.expression → Watches room level.operand level'.operand →
      WatchesInside (room + 1) (some level) (some level')

variable {room : Nat} {p : Parser} {seen : List Moment}

theorem Agrees.keepsDepth {watched : EStateM.Result SyntaxError Watched α}
    {result : EStateM.Result SyntaxError Parser α} (h : Agrees p seen watched result) :
    p.KeepsDepth result := by
  cases h with
  | ok hdepth _ => exact .ok hdepth
  | error hge hle _ => exact .error hge hle

/-! ## Steps -/

theorem pure_watches (a : α) : Watches room (pure a) (pure a) := by
  intro p seen _
  have hok : Agrees p seen (.ok a ⟨p, seen ++ []⟩) (.ok a p) := .ok rfl .nil
  rwa [List.append_nil] at hok

theorem throw_watches (error : SyntaxError) :
    Watches room (throw error : Watch α) (throw error) := by
  intro p seen hroom
  have herror : Agrees p seen (.error error ⟨p, seen ++ []⟩ : EStateM.Result _ _ α)
      (.error error p) := .error (Nat.le_refl p.depth) (by omega) .nil
  rwa [List.append_nil] at herror

/-- What a parser has come to is the same, so no more has to be known of it. -/
theorem look_watches : Watches room look get := by
  intro p seen hroom
  exact pure_watches p p seen hroom

/-- What has been seen before one step has been seen before those behind it. -/
theorem Agrees.after {p₁ : Parser} {first : List Moment}
    {watched : EStateM.Result SyntaxError Watched β} {result : EStateM.Result SyntaxError Parser β}
    (h : Agrees p₁ (seen ++ first) watched result) (hdepth : p₁.depth = p.depth)
    (hfirst : Moment.Run p.depth first p₁.depth) : Agrees p seen watched result := by
  cases h with
  | ok hsame hlater =>
      rw [List.append_assoc]
      exact .ok (hsame.trans hdepth) (hfirst.trans hlater)
  | error hge hle hlater =>
      rw [List.append_assoc]
      exact .error (hdepth ▸ hge) hle (hfirst.trans hlater)

theorem bind_watches {watch : Watch α} {step : Parse α} {watch' : α → Watch β}
    {step' : α → Parse β} (h : Watches room watch step)
    (h' : ∀ a, Watches room (watch' a) (step' a)) :
    Watches room (watch >>= watch') (step >>= step') := by
  intro p seen hroom
  have hfirst := h p seen hroom
  cases hwatch : watch ⟨p, seen⟩ with
  | ok a w =>
      rw [hwatch] at hfirst
      generalize hstep : step p = result at hfirst
      cases hfirst with
      | ok hdepth hlater =>
          rw [Step.bind_of_ok hwatch, Step.bind_of_ok hstep]
          exact (h' a _ _ (by omega)).after hdepth hlater
  | error error w =>
      rw [hwatch] at hfirst
      generalize hstep : step p = result at hfirst
      cases hfirst with
      | error hge hle hlater =>
          rw [Step.bind_of_error hwatch, Step.bind_of_error hstep]
          exact .error hge hle hlater

/-! ## Single tokens -/

theorem advance_watches : Watches room advance Parse.advance := by
  intro p seen hroom
  have hle : p.depth ≤ maxNesting := by omega
  have hmoment : Moment.InRange ⟨.advance, p.depth⟩ := ⟨hle, nofun, nofun⟩
  unfold advance noted Parse.advance
  dsimp only
  cases p.ahead.next with
  | mk first ahead =>
      cases first with
      | ok token => exact .ok rfl (.one hmoment)
      | error error => exact .error (Nat.le_refl _) hle (.one hmoment)

theorem accept?_watches (kinds : List TokenKind) :
    Watches room (accept? kinds) (Parse.accept? kinds) := by
  refine bind_watches look_watches fun p => ?_
  split
  · exact bind_watches advance_watches fun t => pure_watches _
  · exact pure_watches _

theorem expect_watches (expected : Expectation) :
    Watches room (expect expected) (Parse.expect expected) := by
  refine bind_watches look_watches fun p => ?_
  dsimp only
  split
  · exact advance_watches
  · exact throw_watches _

/-! ## Parts one level further in -/

/-- A level is not opened where all are open. -/
theorem descend_of_full {line : Nat} (h : maxNesting ≤ p.depth) :
    descend line ⟨p, seen⟩ = .error (.tooDeep line) ⟨p, seen⟩ := by
  have hlook : look ⟨p, seen⟩ = .ok p ⟨p, seen⟩ := rfl
  unfold descend
  rw [Step.bind_of_ok hlook, if_pos h]
  rfl

/-- And it is opened where one is left. -/
theorem descend_of_left {line : Nat} (h : p.depth < maxNesting) :
    descend line ⟨p, seen⟩
      = .ok () ⟨{ p with depth := p.depth + 1 }, seen ++ [⟨.descend, p.depth⟩]⟩ := by
  have hlook : look ⟨p, seen⟩ = .ok p ⟨p, seen⟩ := rfl
  unfold descend
  rw [Step.bind_of_ok hlook, if_neg (Nat.not_le.mpr h)]
  rfl

/-- The level of a part is closed behind it. -/
theorem nested_of_ok {level : Level} {line : Nat} {part : Level → Watch α} {a : α}
    {p' : Parser} {later : List Moment} (hleft : p.depth < maxNesting)
    (h : part level ⟨{ p with depth := p.depth + 1 }, seen ++ [⟨.descend, p.depth⟩]⟩
      = .ok a ⟨p', later⟩) :
    nested (some level) line part ⟨p, seen⟩
      = .ok a ⟨{ p' with depth := p'.depth - 1 }, later ++ [⟨.ascend, p'.depth⟩]⟩ := by
  unfold nested
  rw [Step.bind_of_ok (descend_of_left hleft)]
  exact Step.bind_of_ok h

/-- The level of a part that fails stays open. -/
theorem nested_of_error {level : Level} {line : Nat} {part : Level → Watch α}
    {error : SyntaxError} {w : Watched} (hleft : p.depth < maxNesting)
    (h : part level ⟨{ p with depth := p.depth + 1 }, seen ++ [⟨.descend, p.depth⟩]⟩
      = .error error w) :
    nested (some level) line part ⟨p, seen⟩ = .error error w := by
  unfold nested
  rw [Step.bind_of_ok (descend_of_left hleft)]
  exact Step.bind_of_error h

/-- **A part that stands further in is in range.** Its level is opened where one is left, and when
it is closed, it is open still. -/
theorem nested_watches {inner : Option Level} {inner' : Option Parse.Level} {line : Nat}
    {part : Level → Watch α} {part' : Parse.Level → Parse α} (hin : WatchesInside room inner inner')
    (hpart : ∀ {n level level'}, Watches n level.expression level'.expression →
      Watches n level.operand level'.operand → Watches n (part level) (part' level')) :
    Watches room (nested inner line part) (Parse.nested inner' line part') := by
  intro p seen hroom
  cases hin with
  | none =>
      have hfull : descend line ⟨p, seen⟩ = .error (.tooDeep line) ⟨p, seen⟩ :=
        descend_of_full (by omega)
      unfold nested
      rw [Step.bind_of_error hfull]
      exact throw_watches (.tooDeep line) p seen hroom
  | @some n level level' he ho =>
      have hleft : p.depth < maxNesting := by omega
      have hdown : Moment.InRange ⟨.descend, p.depth⟩ :=
        ⟨Nat.le_of_lt hleft, fun _ => hleft, nofun⟩
      have hinside := hpart he ho { p with depth := p.depth + 1 } (seen ++ [⟨.descend, p.depth⟩])
        (by show p.depth + 1 + n = _; omega)
      generalize hwatch : part level _ = watched at hinside
      generalize hstep : part' level' _ = result at hinside
      cases hinside with
      | @ok a p' later hdepth hlater =>
          have hdepth : p'.depth = p.depth + 1 := hdepth
          have hup : Moment.InRange ⟨.ascend, p'.depth⟩ :=
            ⟨by show p'.depth ≤ _; omega, nofun, fun _ => by show 0 < p'.depth; omega⟩
          have hsame : Parse.nested (some level') line part' p
              = .ok a { p' with depth := p'.depth - 1 } :=
            Parse.nested_eq_ok.mpr ⟨level', p', rfl, hstep, rfl⟩
          rw [nested_of_ok hleft hwatch, hsame, List.append_assoc, List.append_assoc]
          exact .ok (by show p'.depth - 1 = _; omega) (.cons hdown (hlater.trans (.one hup)))
      | @error error p' later hge hle hlater =>
          have hge : p.depth + 1 ≤ p'.depth := hge
          have hsame : Parse.nested (some level') line part' p = .error error p' :=
            Parse.nested_of_error hstep
          rw [nested_of_error hleft hwatch, hsame, List.append_assoc]
          exact .error (by omega) hle (.cons hdown hlater)

/-! ## Loops -/

/-- A step of a loop that is watched. -/
def ExtendWatches (room : Nat) (extend? : Expr → Watch (Option Expr))
    (extend?' : Expr → Parse (Option Expr)) : Prop :=
  ∀ e, Watches room (extend? e) (extend?' e)

theorem growOver_watches {extend? : Expr → Watch (Option Expr)}
    {extend?' : Expr → Parse (Option Expr)} (hx : ExtendWatches room extend? extend?')
    (bound : List Token) (e : Expr) :
    Watches room (growOver extend? bound e) (Parse.growOver extend?' bound e) := by
  induction bound generalizing e with
  | nil => exact pure_watches e
  | cons _ bound ih =>
    refine bind_watches (hx e) fun o => ?_
    cases o with
    | none => exact pure_watches e
    | some longer => exact ih longer

theorem grow_watches {extend? : Expr → Watch (Option Expr)}
    {extend?' : Expr → Parse (Option Expr)} {first : Watch Expr} {first' : Parse Expr}
    (hx : ExtendWatches room extend? extend?') (hfirst : Watches room first first') :
    Watches room (first >>= grow extend?) (first' >>= Parse.grow extend?') := by
  refine bind_watches hfirst fun e => ?_
  exact bind_watches look_watches fun p => growOver_watches hx _ e

theorem leftAssociative_watches {operand : Watch Expr} {operand' : Parse Expr}
    (h : Watches room operand operand') (operators : List TokenKind)
    (combine : Expr → Token → Expr → Expr) :
    Watches room (leftAssociative operators combine operand)
      (Parse.leftAssociative operators combine operand') := by
  refine grow_watches (fun left => ?_) h
  refine bind_watches (accept?_watches operators) fun o => ?_
  cases o with
  | none => exact pure_watches none
  | some operator => exact bind_watches h fun right => pure_watches _

/-! ## The rules -/

section

variable {inner : Option Level} {inner' : Option Parse.Level}
  (hin : WatchesInside room inner inner')
include hin

theorem primary_watches : Watches room (primary inner) (Parse.primary inner') := by
  have hliteral : Watches room (advance >>= fun t => pure (Expr.literal (t.literal.getD .nil)))
      (Parse.advance >>= fun t => pure (Expr.literal (t.literal.getD .nil))) :=
    bind_watches advance_watches fun t => pure_watches _
  refine bind_watches look_watches fun p => ?_
  dsimp only
  cases p.current.kind with
  | trueWord => exact hliteral
  | falseWord => exact hliteral
  | nilWord => exact hliteral
  | number => exact hliteral
  | string => exact hliteral
  | identifier => exact bind_watches advance_watches fun t => pure_watches _
  | leftParen =>
      refine bind_watches advance_watches fun opening => ?_
      refine bind_watches (nested_watches hin fun he _ => he) fun e => ?_
      exact bind_watches (expect_watches _) fun _ => pure_watches _
  | _ => exact throw_watches _

omit hin in
theorem argumentsUpTo_watches {expression : Watch Expr} {expression' : Parse Expr}
    (h : Watches room expression expression') (count : Nat) :
    Watches room (argumentsUpTo expression count) (Parse.argumentsUpTo expression' count) := by
  induction count with
  | zero => exact bind_watches look_watches fun p => throw_watches _
  | succ count ih =>
    refine bind_watches h fun first => ?_
    refine bind_watches (accept?_watches _) fun o => ?_
    cases o with
    | none => exact pure_watches [first]
    | some _ => exact bind_watches ih fun later => pure_watches _

omit hin in
theorem arguments_watches {level : Level} {level' : Parse.Level}
    (h : Watches room level.expression level'.expression) :
    Watches room (arguments level) (Parse.arguments level') := by
  refine bind_watches look_watches fun p => ?_
  split
  · exact pure_watches []
  · exact argumentsUpTo_watches h _

theorem callOrGet?_watches : ExtendWatches room (callOrGet? inner) (Parse.callOrGet? inner') := by
  intro e
  refine bind_watches (accept?_watches _) fun paren => ?_
  split
  · refine bind_watches look_watches fun p => ?_
    refine bind_watches (nested_watches hin fun he _ => arguments_watches he) fun es => ?_
    exact bind_watches (expect_watches _) fun _ => pure_watches _
  · refine bind_watches (accept?_watches _) fun point => ?_
    split
    · exact bind_watches (expect_watches _) fun name => pure_watches _
    · exact pure_watches none

theorem call_watches : Watches room (call inner) (Parse.call inner') :=
  grow_watches (callOrGet?_watches hin) (primary_watches hin)

theorem unary_watches : Watches room (unary inner) (Parse.unary inner') := by
  refine bind_watches (accept?_watches _) fun o => ?_
  cases o with
  | none => exact call_watches hin
  | some operator =>
      exact bind_watches (nested_watches hin fun _ ho => ho) fun right => pure_watches _

theorem factor_watches : Watches room (factor inner) (Parse.factor inner') :=
  leftAssociative_watches (unary_watches hin) _ _

theorem term_watches : Watches room (term inner) (Parse.term inner') :=
  leftAssociative_watches (factor_watches hin) _ _

theorem comparison_watches : Watches room (comparison inner) (Parse.comparison inner') :=
  leftAssociative_watches (term_watches hin) _ _

theorem equality_watches : Watches room (equality inner) (Parse.equality inner') :=
  leftAssociative_watches (comparison_watches hin) _ _

theorem conjunction_watches : Watches room (conjunction inner) (Parse.conjunction inner') :=
  leftAssociative_watches (equality_watches hin) _ _

theorem disjunction_watches : Watches room (disjunction inner) (Parse.disjunction inner') :=
  leftAssociative_watches (conjunction_watches hin) _ _

theorem assignment_watches : Watches room (assignment inner) (Parse.assignment inner') := by
  refine bind_watches (disjunction_watches hin) fun left => ?_
  refine bind_watches (accept?_watches _) fun o => ?_
  cases o with
  | none => exact pure_watches left
  | some equals =>
      refine bind_watches (nested_watches hin fun he _ => he) fun value => ?_
      cases left with
      | var target => exact pure_watches _
      | get object name => exact pure_watches _
      | _ => exact throw_watches _

end

/-! ## Whole expressions -/

/-- At every level, by induction on the number of those inside it. -/
theorem inside_watches (room : Nat) : WatchesInside room (inside room) (Parse.inside room) := by
  induction room with
  | zero => exact .none
  | succ room ih => exact .some (assignment_watches ih) (unary_watches ih)

theorem expression_watches : Watches room expression Parse.expression := by
  intro p seen hroom
  have hleft : maxNesting - p.depth = room := by omega
  show Agrees p seen (assignment (inside (maxNesting - p.depth)) ⟨p, seen⟩)
    (Parse.assignment (Parse.inside (maxNesting - p.depth)) p)
  rw [hleft]
  exact assignment_watches (inside_watches room) p seen hroom

theorem request_watches (request : Request) : Watches room request.watch request.parse := by
  cases request with
  | expression => exact expression_watches
  | whole =>
      refine bind_watches expression_watches fun e => ?_
      exact bind_watches (expect_watches _) fun _ => pure_watches e

end Watch

/-! ## Calls -/

namespace Parser

variable {p : Parser}

/-- Where no more levels are open than may be, a step that is watched keeps the depth. -/
theorem keepsDepth_of_watches {α : Type} {watch : Watch α} {step : Parse α}
    (h : Watch.Watches (maxNesting - p.depth) watch step) (hp : p.depth ≤ maxNesting) :
    p.KeepsDepth (step p) := (h p [] (Nat.add_sub_of_le hp)).keepsDepth

/-- The parser of any rule does. -/
theorem keepsDepth_of_rule (rule : Rule) (hp : p.depth ≤ maxNesting) :
    p.KeepsDepth (rule.parser (Parse.inside (maxNesting - p.depth)) p) := by
  have hin := Watch.inside_watches (maxNesting - p.depth)
  cases rule with
  | assignment => exact keepsDepth_of_watches (Watch.assignment_watches hin) hp
  | disjunction => exact keepsDepth_of_watches (Watch.disjunction_watches hin) hp
  | conjunction => exact keepsDepth_of_watches (Watch.conjunction_watches hin) hp
  | equality => exact keepsDepth_of_watches (Watch.equality_watches hin) hp
  | comparison => exact keepsDepth_of_watches (Watch.comparison_watches hin) hp
  | term => exact keepsDepth_of_watches (Watch.term_watches hin) hp
  | factor => exact keepsDepth_of_watches (Watch.factor_watches hin) hp
  | unary => exact keepsDepth_of_watches (Watch.unary_watches hin) hp
  | call => exact keepsDepth_of_watches (Watch.call_watches hin) hp
  | primary => exact keepsDepth_of_watches (Watch.primary_watches hin) hp

end Parser

/-! ## Requests -/

namespace Watched

/-- A watched parser that can be asked, and that was in range since it had no level open. -/
structure InRange (w : Watched) : Prop where
  depth_le : w.parser.depth ≤ maxNesting
  run : Moment.Run 0 w.seen w.parser.depth

variable {w : Watched}

/-- **A request is answered as it is without being watched, and leaves a parser in range**, whether
or not it fails. -/
theorem InRange.ask (h : w.InRange) (request : Request) :
    (w.ask request).1 = (w.parser.ask request).1
      ∧ (w.ask request).2.parser = (w.parser.ask request).2 ∧ (w.ask request).2.InRange := by
  have hagrees := Watch.request_watches request w.parser w.seen (Nat.add_sub_of_le h.depth_le)
  unfold Watched.ask Parser.ask
  generalize request.watch w = watched at hagrees ⊢
  generalize request.parse w.parser = result at hagrees ⊢
  cases hagrees with
  | ok hdepth hlater => exact ⟨rfl, rfl, hdepth ▸ h.depth_le, h.run.trans hlater⟩
  | error _ hle hlater => exact ⟨rfl, rfl, hle, h.run.trans hlater⟩

/-- And so are any number of requests, by induction on them. -/
theorem InRange.askAll (h : w.InRange) (requests : List Request) :
    (w.askAll requests).1 = (w.parser.askAll requests).1
      ∧ (w.askAll requests).2.parser = (w.parser.askAll requests).2
      ∧ (w.askAll requests).2.InRange := by
  induction requests generalizing w with
  | nil => exact ⟨rfl, rfl, h⟩
  | cons request requests ih =>
    obtain ⟨hanswer, hparser, hrange⟩ := h.ask request
    obtain ⟨hanswers, hlast, hall⟩ := ih hrange
    rw [hparser] at hanswers hlast
    refine ⟨?_, hlast, hall⟩
    have hfirst : (w.askAll (request :: requests)).1
        = (w.ask request).1 :: ((w.ask request).2.askAll requests).1 := rfl
    rw [hfirst, hanswer, hanswers]
    rfl

end Watched

/--
**The depth of a parser stays in range.**

A call of any rule, of a turn of its loop behind a callee, or of a whole expression that starts with
no more levels open than may be leaves as many open as it found if it succeeds, and at least as many
if it fails, but still no more than may be.

A parser of a text starts with no level open. Whatever it is asked then, one request after the other
and also behind failed ones, it gives the same answers and does the same as one that is watched; and
of that one it is known at every moment that it is in range: no more levels are open than may be, a
level is opened only if one is left, and closed only if one is open. No change is left out, since
every moment finds the depth that the one before it has left, up to the depth at the end.
-/
theorem depth_stays_in_range :
    (∀ (p : Parser), p.depth ≤ maxNesting →
        (∀ rule : Rule, p.KeepsDepth (rule.parser (Parse.inside (maxNesting - p.depth)) p))
        ∧ (∀ callee, p.KeepsDepth (Parse.callOrGet? (Parse.inside (maxNesting - p.depth)) callee p))
        ∧ ∀ request : Request, p.KeepsDepth (request.parse p))
      ∧ ∀ (text : String) (p : Parser), Parser.start text = .ok p → p.depth = 0
        ∧ ∀ requests, let w := (Watched.mk p []).askAll requests
          w.1 = (p.askAll requests).1 ∧ w.2.parser = (p.askAll requests).2
            ∧ w.2.parser.depth ≤ maxNesting ∧ (∀ moment ∈ w.2.seen, moment.InRange)
            ∧ Moment.Run 0 w.2.seen w.2.parser.depth := by
  refine ⟨fun p hp => ⟨fun rule => p.keepsDepth_of_rule rule hp, fun callee => ?_, ?_⟩, ?_⟩
  · have hin := Watch.inside_watches (maxNesting - p.depth)
    exact Parser.keepsDepth_of_watches (Watch.callOrGet?_watches hin callee) hp
  · exact fun request => Parser.keepsDepth_of_watches (Watch.request_watches request) hp
  · intro text p hstart
    obtain ⟨-, -, hdepth, -⟩ := Parser.start_eq_ok hstart
    refine ⟨hdepth, fun requests => ?_⟩
    have hw : Watched.InRange ⟨p, []⟩ := ⟨by show p.depth ≤ _; omega, by rw [hdepth]; exact .nil⟩
    obtain ⟨hanswers, hparser, hrange⟩ := hw.askAll requests
    exact ⟨hanswers, hparser, hrange.depth_le, hrange.run.inRange, hrange.run⟩

/-- A grouping with a sign in it, and then a call that fails in its arguments and leaves their level
open. The next request finds it open. -/
theorem depth_stays_in_range_call :
    ∃ p, Parser.start "(-a)(b." = .ok p ∧ p.KeepsDepth (Request.expression.parse p)
      ∧ (Watched.askAll ⟨p, []⟩ [.expression, .whole]).2.seen
        = [⟨.advance, 0⟩, ⟨.descend, 0⟩, ⟨.advance, 1⟩, ⟨.descend, 1⟩, ⟨.advance, 2⟩, ⟨.ascend, 2⟩,
          ⟨.ascend, 1⟩, ⟨.advance, 0⟩, ⟨.advance, 0⟩, ⟨.descend, 0⟩, ⟨.advance, 1⟩, ⟨.advance, 1⟩]
      ∧ ∀ moment ∈ (Watched.askAll ⟨p, []⟩ [.expression, .whole]).2.seen, moment.InRange := by
  have hscan : Scan.ofText "(-a)(b." = ⟨[⟨.leftParen, "(", none, 1⟩, ⟨.minus, "-", none, 1⟩,
    ⟨.identifier, "a", none, 1⟩, ⟨.rightParen, ")", none, 1⟩, ⟨.leftParen, "(", none, 1⟩,
    ⟨.identifier, "b", none, 1⟩, ⟨.dot, ".", none, 1⟩], .finished 1⟩ := rfl
  have hstart : Parser.start "(-a)(b." = .ok ⟨⟨.leftParen, "(", none, 1⟩,
      ⟨[⟨.minus, "-", none, 1⟩, ⟨.identifier, "a", none, 1⟩, ⟨.rightParen, ")", none, 1⟩,
        ⟨.leftParen, "(", none, 1⟩, ⟨.identifier, "b", none, 1⟩, ⟨.dot, ".", none, 1⟩],
        .finished 1⟩, 0⟩ := by
    unfold Parser.start
    rw [hscan]
    rfl
  obtain ⟨hcalls, htexts⟩ := depth_stays_in_range
  obtain ⟨hdepth, hruns⟩ := htexts _ _ hstart
  obtain ⟨-, -, -, hrange, -⟩ := hruns [.expression, .whole]
  obtain ⟨-, -, hrequests⟩ := hcalls _ (Nat.le_trans (Nat.le_of_eq hdepth) (Nat.zero_le _))
  exact ⟨_, hstart, hrequests .expression, by decide +kernel, hrange⟩

end Lox
