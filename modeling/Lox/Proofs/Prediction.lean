import Lox.Proofs.Observed
import Lox.Proofs.References
import Lox.Session

/-!
# A resolver predicts the uses of variables

Does evaluation use the variables a resolver has found, and in the order in which it found them? It
may use fewer. An operator may leave its right side unevaluated, and an error ends the evaluation
somewhere in the middle. `Covers uses rs` says what holds nevertheless: the uses are references of
the list in their order, and only conditional ones are left out.

`Follows` carries this through the steps of an evaluation. A step that succeeds covers all of its
references, and one that fails covers them up to some place.
-/

namespace Lox

/-! ## Uses that go along a list of references -/

/-- The uses are references of the list, in the order of the list. They are a selection of it that
leaves out conditional references only. -/
def Covers (uses : List Use) (rs : List Reference) : Prop :=
  ∃ taken : List Reference, taken.Sublist rs ∧ taken.map Reference.use = uses
    ∧ taken.filter (!·.conditional) = rs.filter (!·.conditional)

namespace Covers

variable {uses uses' : List Use} {rs rs' : List Reference}

theorem nil : Covers [] [] := ⟨[], List.Sublist.slnil, rfl, rfl⟩

theorem one (r : Reference) : Covers [r.use] [r] := ⟨[r], List.Sublist.refl _, rfl, rfl⟩

/-- Conditional references may be left out, all of them at once. -/
theorem of_conditional (h : ∀ r ∈ rs, r.conditional = true) : Covers [] rs := by
  refine ⟨[], List.nil_sublist _, rfl, ?_⟩
  have hnone : rs.filter (!·.conditional) = [] := by
    refine List.filter_eq_nil_iff.mpr fun r hr => ?_
    rw [h r hr]
    decide
  rw [hnone]
  rfl

theorem append (h : Covers uses rs) (h' : Covers uses' rs') :
    Covers (uses ++ uses') (rs ++ rs') := by
  obtain ⟨taken, hsub, rfl, hkept⟩ := h
  obtain ⟨taken', hsub', rfl, hkept'⟩ := h'
  refine ⟨taken ++ taken', hsub.append hsub', List.map_append, ?_⟩
  rw [List.filter_append, List.filter_append, hkept, hkept']

/-- Where nothing is conditional, nothing is left out. -/
theorem eq_map (h : Covers uses rs) (hc : ∀ r ∈ rs, r.conditional = false) :
    uses = rs.map Reference.use := by
  obtain ⟨taken, hsub, rfl, hkept⟩ := h
  have hall : ∀ {xs : List Reference}, xs.Sublist rs → xs.filter (!·.conditional) = xs := by
    intro xs hxs
    refine List.filter_eq_self.mpr fun r hr => ?_
    rw [hc r (hxs.subset hr)]
    rfl
  rw [hall hsub, hall (List.Sublist.refl _)] at hkept
  rw [hkept]

/-- What comes behind the last use can be left off the list. -/
theorem upToLast (h : Covers uses rs) :
    ∃ reached, reached <+: rs ∧ Covers uses reached
      ∧ reached.getLast?.map Reference.use = uses.getLast? := by
  obtain ⟨taken, hsub, rfl, hkept⟩ := h
  cases hlast : taken.getLast? with
  | none =>
      obtain rfl := List.getLast?_eq_none_iff.mp hlast
      exact ⟨[], List.nil_prefix, nil, rfl⟩
  | some last =>
      obtain ⟨earlier, rfl⟩ := List.getLast?_eq_some_iff.mp hlast
      obtain ⟨front, rest, rfl, hfront, hrest⟩ := List.append_sublist_iff.mp hsub
      obtain ⟨passed, behind, rfl⟩ := List.append_of_mem (List.singleton_sublist.mp hrest)
      -- the list ends with the last reference that is taken
      have hreached : (earlier ++ [last]).Sublist (front ++ (passed ++ [last])) :=
        hfront.append (List.sublist_append_right _ _)
      have hfirst : front ++ (passed ++ [last]) <+: front ++ (passed ++ last :: behind) :=
        ⟨behind, by simp⟩
      refine ⟨_, hfirst, ⟨_, hreached, rfl, ?_⟩, by simp⟩
      have hle := hreached.filter (!·.conditional)
      have hge := hfirst.sublist.filter (!·.conditional)
      rw [← hkept] at hge
      exact hle.eq_of_length_le hge.length_le

end Covers

/-! ## Steps that follow their references -/

/-- An observed step does what the plain one does, and it uses variables as these references say:
all the way if it succeeds, and otherwise up to some place. -/
def Follows {α : Type} (observed : Observed Use α) (step : Eval α) (rs : List Reference) : Prop :=
  ∀ m before, ∃ uses, observed (m, before) = Observed.noting (before ++ uses) (step m)
    ∧ match step m with
      | .ok _ _ => Covers uses rs
      | .error _ _ => ∃ reached, reached <+: rs ∧ Covers uses reached

namespace Follows

variable {α β : Type} {observed : Observed Use α} {step : Eval α} {rs later : List Reference}

theorem plain (step : Eval α) : Follows (Observed.plain step) step [] := by
  intro m before
  refine ⟨[], by rw [List.append_nil]; rfl, ?_⟩
  cases step m with
  | ok a m' => exact Covers.nil
  | error error m' => exact ⟨[], List.nil_prefix, Covers.nil⟩

theorem pure (a : α) : Follows (Pure.pure a : Observed Use α) (Pure.pure a) [] :=
  plain (Pure.pure a : Eval α)

/-- A step that uses one variable, whether or not it succeeds. -/
theorem access (access : Access) (name : Token) (conditional : Bool) (step : Eval α) :
    Follows (Observed.access Event.use? access name step) step
      [⟨name.lexeme, name.line, access, conditional⟩] := by
  intro m before
  refine ⟨[⟨name.lexeme, name.line, access⟩], rfl, ?_⟩
  have hone := Covers.one ⟨name.lexeme, name.line, access, conditional⟩
  cases step m with
  | ok a m' => exact hone
  | error error m' => exact ⟨_, List.prefix_rfl, hone⟩

/-- An error follows any references, for it comes to none of them. -/
theorem throw (error : RuntimeError) (rs : List Reference) :
    Follows (MonadExcept.throw error : Observed Use α) (MonadExcept.throw error) rs := by
  intro m before
  exact ⟨[], by rw [List.append_nil]; rfl, [], List.nil_prefix, Covers.nil⟩

/-- That an expression begins is no use of a variable. -/
theorem begins {e : Expr} (h : Follows observed step rs) :
    Follows (Observed.noted Event.use? (.begins e) observed) step rs := by
  rwa [Observed.noted_of_none fun _ => rfl]

/-- Nor is it one that a function is run. -/
theorem call (host : Host) (line : Nat) (callee : Object) (arguments : List Object) :
    Follows (Observed.call Event.use? host line callee arguments)
      (Eval.call host line callee arguments) [] := by
  unfold Observed.call Eval.call
  cases callee with
  | function f =>
      dsimp only
      split
      · rw [Observed.noted_of_none fun _ => rfl]
        exact plain _
      · exact throw _ _
  | _ => exact throw _ _

/-- A step that uses no variable may leave out conditional references. -/
theorem skip (h : Follows observed step []) (hc : ∀ r ∈ rs, r.conditional = true) :
    Follows observed step rs := by
  intro m before
  obtain ⟨uses, hobserved, hcovers⟩ := h m before
  refine ⟨uses, hobserved, ?_⟩
  cases hstep : step m with
  | ok a m' =>
      rw [hstep] at hcovers
      have hall := hcovers.append (Covers.of_conditional hc)
      rwa [List.append_nil] at hall
  | error error m' =>
      rw [hstep] at hcovers
      obtain ⟨reached, hreached, hcovers⟩ := hcovers
      obtain rfl := List.prefix_nil.mp hreached
      exact ⟨[], List.nil_prefix, hcovers⟩

/-- Two steps use the variables of the first one and then those of the second one. -/
theorem bind {observed' : α → Observed Use β} {step' : α → Eval β} (h : Follows observed step rs)
    (h' : ∀ a, Follows (observed' a) (step' a) later) :
    Follows (observed >>= observed') (step >>= step') (rs ++ later) := by
  intro m before
  obtain ⟨uses, hobserved, hcovers⟩ := h m before
  cases hstep : step m with
  | error error m' =>
      -- the second step is not made, so the place stays where the first one failed
      rw [hstep] at hobserved hcovers
      obtain ⟨reached, hreached, hcovers⟩ := hcovers
      refine ⟨uses, ?_, ?_⟩
      · rw [Step.bind_of_error hstep]
        exact Step.bind_of_error hobserved
      · rw [Step.bind_of_error hstep]
        exact ⟨reached, hreached.trans (List.prefix_append ..), hcovers⟩
  | ok a m' =>
      -- the second step notes its uses behind those of the first one
      rw [hstep] at hobserved hcovers
      obtain ⟨uses', hobserved', hcovers'⟩ := h' a m' (before ++ uses)
      rw [List.append_assoc] at hobserved'
      refine ⟨uses ++ uses', ?_, ?_⟩
      · rw [Step.bind_of_ok hstep]
        exact (Step.bind_of_ok hobserved).trans hobserved'
      · rw [Step.bind_of_ok hstep]
        cases hstep' : step' a m' with
        | ok b m'' =>
            rw [hstep'] at hcovers'
            exact hcovers.append hcovers'
        | error error m'' =>
            rw [hstep'] at hcovers'
            obtain ⟨reached, hreached, hcovers'⟩ := hcovers'
            exact ⟨rs ++ reached, (List.prefix_append_right_inj rs).mpr hreached,
              hcovers.append hcovers'⟩

/-- A step behind which no variable is used. -/
theorem bind_nil {observed' : α → Observed Use β} {step' : α → Eval β}
    (h : Follows observed step rs) (h' : ∀ a, Follows (observed' a) (step' a) []) :
    Follows (observed >>= observed') (step >>= step') rs := by
  have hboth := h.bind h'
  rwa [List.append_nil] at hboth

end Follows

/-! ## Every expression is followed -/

open Lox.Expr (references referencesOfList)

mutual

/-- **Evaluation follows the references of an expression**, by induction on the expression. -/
theorem expr_follows (host : Host) :
    ∀ (conditional : Bool) (e : Expr),
      Follows (Observed.expr Event.use? host e) (Eval.expr host e) (references conditional e)
  | c, .assign target operator value => by
      rw [Observed.expr, Eval.expr, references]
      refine .begins ((expr_follows host c value).bind fun object => ?_)
      exact (Follows.access .write target c _).bind_nil fun _ => .pure object
  | c, .binary left operator right => by
      rw [Observed.expr, Eval.expr, references]
      refine .begins ((expr_follows host c left).bind fun first => ?_)
      exact (expr_follows host c right).bind_nil fun second => .plain _
  | c, .call callee arguments => by
      rw [Observed.expr, Eval.expr, references]
      refine .begins ((expr_follows host c callee).bind fun function => ?_)
      exact (exprs_follow host c arguments).bind_nil fun objects => .call host _ function objects
  | c, .get object name => by
      rw [Observed.expr, Eval.expr, references]
      exact .begins ((expr_follows host c object).bind_nil fun first => .plain _)
  | c, .grouping inner => by
      rw [Observed.expr, Eval.expr, references]
      exact .begins (expr_follows host c inner)
  | c, .literal value => by
      rw [Observed.expr, Eval.expr, references]
      exact .begins (.pure _)
  | c, .logical left operator right => by
      rw [Observed.expr, Eval.expr, references]
      refine .begins ((expr_follows host c left).bind fun first => ?_)
      -- the operator decides whether the right side is left out
      refine (Follows.plain (MonadExcept.ofExcept (Eval.settles operator first))).bind ?_
      intro settled
      cases settled with
      | true =>
          exact (Follows.pure first).skip fun r hr => Expr.conditional_eq (Or.inl rfl) hr
      | false => exact expr_follows host true right
  | c, .set object name value => by
      rw [Observed.expr, Eval.expr, references]
      refine .begins ((expr_follows host c object).bind fun first => ?_)
      cases first with
      | inst ref =>
          refine (expr_follows host c value).bind_nil fun contents => ?_
          exact (Follows.plain _).bind_nil fun _ => Follows.pure contents
      | _ => exact Follows.throw _ _
  | c, .unary operator right => by
      rw [Observed.expr, Eval.expr, references]
      exact .begins ((expr_follows host c right).bind_nil fun operand => .plain _)
  | c, .var name => by
      rw [Observed.expr, Eval.expr, references]
      exact .begins (.access .read name c _)

theorem exprs_follow (host : Host) :
    ∀ (conditional : Bool) (es : List Expr),
      Follows (Observed.exprs Event.use? host es) (Eval.exprs host es)
        (referencesOfList conditional es)
  | c, [] => Follows.pure _
  | c, e :: es => by
      rw [Observed.exprs, Eval.exprs, referencesOfList]
      refine (expr_follows host c e).bind fun object => ?_
      exact (exprs_follow host c es).bind_nil fun objects => Follows.pure (object :: objects)

end

/--
**A resolver predicts which variables an evaluation uses.**

A resolver that takes any name does not fail. If the evaluation succeeds, the variables it has used
are the references the resolver found, but for conditional ones. If it fails, this is so up to the
last use. Where no part may be left unevaluated, the uses are the references, or the first of them.
-/
theorem resolver_predicts_uses (host : Host) (m : Memory) (e : Expr) :
    ∃ rs uses, (Resolver.start .anything).resolve e = (.ok (), ⟨.anything, rs⟩)
      ∧ Observed.expr Event.use? host e (m, []) = Observed.noting uses (Eval.expr host e m)
      ∧ match Eval.expr host e m with
        | .ok _ _ => Covers uses rs
            ∧ (Expr.Straight e.nodes → uses = rs.map Reference.use)
        | .error _ _ =>
            (∃ reached, reached <+: rs ∧ Covers uses reached
              ∧ reached.getLast?.map Reference.use = uses.getLast?)
            ∧ (Expr.Straight e.nodes → uses <+: rs.map Reference.use) := by
  have hresolve : (Resolver.start .anything).resolve e
      = (.ok (), ⟨.anything, e.references false⟩) :=
    Resolver.resolve_of_declared fun _ _ => rfl
  obtain ⟨uses, hobserved, hcovers⟩ := expr_follows host false e m []
  refine ⟨e.references false, uses, hresolve, hobserved, ?_⟩
  have hstraight : Expr.Straight e.nodes → ∀ r ∈ e.references false, r.conditional = false :=
    fun hs _ hr => Expr.conditional_eq (Or.inr hs) hr
  cases hstep : Eval.expr host e m with
  | ok object m' =>
      rw [hstep] at hcovers
      exact ⟨hcovers, fun hs => hcovers.eq_map (hstraight hs)⟩
  | error error m' =>
      rw [hstep] at hcovers
      obtain ⟨reached, hreached, hcovers⟩ := hcovers
      -- the step has failed somewhere behind its last use, or at it
      obtain ⟨last, hlast, hcovered⟩ := hcovers.upToLast
      refine ⟨⟨last, hlast.trans hreached, hcovered⟩, fun hs => ?_⟩
      rw [hcovers.eq_map fun r hr => hstraight hs r (hreached.subset hr)]
      exact hreached.map Reference.use

/-- With `a` true, `a or b` does not use `b`, which a resolver reports as conditional. -/
example :
    let a : Token := ⟨.identifier, "a", none, 1⟩
    let b : Token := ⟨.identifier, "b", none, 1⟩
    let m : Memory := ⟨Environment.empty.define "a" (.boolean true), Heap.empty, 0⟩
    let either : Expr := .logical (.var a) ⟨.orWord, "or", none, 1⟩ (.var b)
    Observed.expr Event.use? Host.empty either (m, [])
      = .ok (.boolean true) (m, [⟨"a", 1, .read⟩]) := rfl

end Lox
