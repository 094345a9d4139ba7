import Lox.Proofs.Places

/-!
# One expression after the other

A resolver that is given several expressions in turn does with each of them what a new one would do,
also behind those it has failed at. For the references themselves nothing has to be shown, since a
resolver only ever adds to them. But how does it know which of them are conditional?

`Resolve.expr` is told so. A walk can also find it out, by counting the right sides that it is in,
and then the count has to be right in front of every expression: what is counted in front of a
right side has to be taken off behind it, on the way of an error too. `Walk.expr` is such a walk,
and it does what `Resolve.expr` does.
-/

namespace Lox

/-! ## Counting the right sides -/

/-- What a walk that counts has recorded so far, and the number of right sides it is in. -/
structure Walk where
  references : List Reference
  depth : Nat

namespace Walk

/-- A walk that has not begun. -/
def start : Walk := ⟨[], 0⟩

/-- Records a reference to a name. It is conditional if the walk is in any right side. -/
def record (scope : Scope) (access : Access) (name : Token) : EStateM Undeclared Walk Unit := do
  if scope.declares name.lexeme then
    modify fun w => { w with
      references := w.references ++ [⟨name.lexeme, name.line, access, decide (0 < w.depth)⟩] }
  else throw ⟨name.lexeme, name.line⟩

/-- Walks through a right side, which counts up to its end, or up to its error. -/
def inRightSide (step : EStateM Undeclared Walk Unit) : EStateM Undeclared Walk Unit := do
  modify fun w => { w with depth := w.depth + 1 }
  try step finally modify fun w => { w with depth := w.depth - 1 }

mutual

/-- Records the references of an expression. -/
def expr (scope : Scope) : Expr → EStateM Undeclared Walk Unit
  | .assign target _ value => do
    expr scope value
    record scope .write target
  | .binary left _ right => do
    expr scope left
    expr scope right
  | .call callee arguments => do
    expr scope callee
    exprs scope arguments
  | .get object _ => expr scope object
  | .grouping inner => expr scope inner
  | .literal _ => return ()
  | .logical left _ right => do
    expr scope left
    inRightSide (expr scope right)
  | .set object _ value => do
    expr scope object
    expr scope value
  | .unary _ right => expr scope right
  | .var name => record scope .read name

/-- Records the references of several expressions, from left to right. -/
def exprs (scope : Scope) : List Expr → EStateM Undeclared Walk Unit
  | [] => return ()
  | e :: es => do
    expr scope e
    exprs scope es

end

/-- Walks through an expression, from where the walk through the one before it has ended. -/
def resolve (w : Walk) (scope : Scope) (e : Expr) : Except Undeclared Unit × Walk :=
  (Step.outcome (expr scope e w), Step.after (expr scope e w))

/-- The walk through several expressions in turn, whether or not it fails at any of them. -/
def after (w : Walk) (scope : Scope) (es : List Expr) : Walk :=
  es.foldl (fun w e => (w.resolve scope e).2) w

/-- What comes of a resolver, with a count beside it. -/
def counted (depth : Nat) : EStateM.Result Undeclared (List Reference) Unit →
    EStateM.Result Undeclared Walk Unit
  | .ok a references => .ok a ⟨references, depth⟩
  | .error error references => .error error ⟨references, depth⟩

/-- A step that counts does what another step does that is told whether it is in a right side, and
its count is the same afterwards, whether or not it fails. -/
def Counts (step : EStateM Undeclared Walk Unit) (told : Bool → Resolve Unit) : Prop :=
  ∀ w : Walk, step w = counted w.depth (told (decide (0 < w.depth)) w.references)

namespace Counts

variable {scope : Scope} {step step' : EStateM Undeclared Walk Unit}
  {told told' : Bool → Resolve Unit}

theorem pure : Counts (Pure.pure ()) fun _ => Pure.pure () := fun _ => rfl

theorem bind (h : Counts step told) (h' : Counts step' told') :
    Counts (step >>= fun _ => step') (fun c => told c >>= fun _ => told' c) := by
  intro w
  have hw := h w
  dsimp only
  cases htold : told (decide (0 < w.depth)) w.references with
  | ok a references =>
      rw [htold] at hw
      rw [Step.bind_of_ok hw, Step.bind_of_ok htold]
      exact h' ⟨references, w.depth⟩
  | error error references =>
      rw [htold] at hw
      rw [Step.bind_of_error hw, Step.bind_of_error htold]
      rfl

theorem record (access : Access) (name : Token) :
    Counts (Walk.record scope access name) fun c => Resolve.record scope c access name := by
  intro w
  unfold Walk.record Resolve.record
  split <;> rfl

/-- In a right side the count is above 0, and behind it the count is what it was. -/
theorem inRightSide (h : Counts step told) : Counts (Walk.inRightSide step) fun _ => told true := by
  intro w
  have hw : step { w with depth := w.depth + 1 }
      = counted (w.depth + 1) (told true w.references) := by
    have hdeeper := h { w with depth := w.depth + 1 }
    rwa [decide_eq_true (Nat.succ_pos w.depth)] at hdeeper
  have hfirst : (modify fun w => { w with depth := w.depth + 1 } : EStateM Undeclared Walk Unit) w
      = .ok () { w with depth := w.depth + 1 } := rfl
  rw [Walk.inRightSide, Step.bind_of_ok hfirst]
  dsimp only
  cases htold : told true w.references with
  | ok a references =>
      rw [htold] at hw
      exact Step.finally_of_ok hw
  | error error references =>
      rw [htold] at hw
      exact Step.finally_of_error hw

end Counts

mutual

/-- **A walk that counts finds out what a resolver is told**, by induction on the expression. -/
theorem expr_counts (scope : Scope) :
    ∀ e : Expr, Counts (expr scope e) fun c => Resolve.expr scope c e
  | .assign target _ value => (expr_counts scope value).bind (.record .write target)
  | .binary left _ right => (expr_counts scope left).bind (expr_counts scope right)
  | .call callee arguments => (expr_counts scope callee).bind (exprs_count scope arguments)
  | .get object _ => expr_counts scope object
  | .grouping inner => expr_counts scope inner
  | .literal _ => .pure
  | .logical left _ right => (expr_counts scope left).bind (expr_counts scope right).inRightSide
  | .set object _ value => (expr_counts scope object).bind (expr_counts scope value)
  | .unary _ right => expr_counts scope right
  | .var name => .record .read name

theorem exprs_count (scope : Scope) :
    ∀ es : List Expr, Counts (exprs scope es) fun c => Resolve.exprs scope c es
  | [] => .pure
  | e :: es => (expr_counts scope e).bind (exprs_count scope es)

end

/-- A walk that is in no right side does what a resolver does, and is in none afterwards. -/
theorem resolve_eq (r : Resolver) (e : Expr) :
    resolve ⟨r.references, 0⟩ r.scope e = ((r.resolve e).1, ⟨(r.resolve e).2.references, 0⟩) := by
  have hcounts : expr r.scope e ⟨r.references, 0⟩
      = counted 0 (Resolve.expr r.scope false e r.references) :=
    expr_counts r.scope e ⟨r.references, 0⟩
  unfold resolve Resolver.resolve
  rw [hcounts]
  cases Resolve.expr r.scope false e r.references <;> rfl

end Walk

/-! ## Resolvers in turn -/

namespace Resolver

/-- The resolver behind several expressions, whether or not it fails at any of them. -/
def after (r : Resolver) (es : List Expr) : Resolver := es.foldl (fun r e => (r.resolve e).2) r

/-- A resolver goes on from what it has recorded, and otherwise does what a new one does. -/
theorem resolve_eq_start (r : Resolver) (e : Expr) :
    r.resolve e = (((start r.scope).resolve e).1,
      { r with references := r.references ++ ((start r.scope).resolve e).2.references }) := by
  rcases declared_or_first r.scope e with h | ⟨recorded, x, later, hsplit, hdeclared, hx⟩
  · rw [resolve_of_declared (r := start r.scope) h, resolve_of_declared h]
    rfl
  · rw [resolve_of_undeclared (r := start r.scope) hsplit hdeclared hx,
      resolve_of_undeclared hsplit hdeclared hx]
    rfl

theorem resolve_scope (r : Resolver) (e : Expr) : (r.resolve e).2.scope = r.scope := by
  rw [resolve_eq_start]

/-- The globals stay the same, by induction on the expressions. -/
theorem after_scope (r : Resolver) (es : List Expr) : (r.after es).scope = r.scope := by
  induction es generalizing r with
  | nil => rfl
  | cons e es ih => exact (ih (r.resolve e).2).trans (r.resolve_scope e)

/-- A walk that counts keeps up with a resolver, by induction on the expressions. -/
theorem after_counts (r : Resolver) (es : List Expr) :
    Walk.after ⟨r.references, 0⟩ r.scope es = ⟨(r.after es).references, 0⟩ := by
  induction es generalizing r with
  | nil => rfl
  | cons e es ih =>
    have hlater := ih (r.resolve e).2
    rw [resolve_scope] at hlater
    show Walk.after (Walk.resolve ⟨r.references, 0⟩ r.scope e).2 r.scope es = _
    rw [Walk.resolve_eq]
    exact hlater

end Resolver

/-! ## Declared names -/

/-- A list whose first member without a property is `x` has no longer first part with that
property than the one in front of `x`. -/
theorem prefix_of_all {α : Type} {P : α → Prop} {recorded later front : List α} {x : α}
    (hfront : front <+: recorded ++ x :: later) (hx : ¬P x) (h : ∀ y ∈ front, P y) :
    front <+: recorded := by
  rcases List.prefix_or_prefix_of_prefix hfront (List.prefix_append recorded _)
    with h' | ⟨more, rfl⟩
  · exact h'
  · cases more with
    | nil => simp
    | cons y more =>
        obtain ⟨rest, hrest⟩ := hfront
        rw [List.append_assoc, List.cons_append] at hrest
        obtain ⟨rfl, _⟩ := List.cons.inj (List.append_cancel_left hrest)
        exact absurd (h y (by simp)) hx

/--
**A resolver records exactly the references, in each expression anew.**

Whatever it was given before, and whether or not it failed there, a resolver adds to its
references what a new one with the same globals would record, and has the same answer. A walk that
counts the right sides is in none when it comes to the next expression, and so it does the same.

If there are no globals to keep to, the references `all` of an expression are those of its places:
one for each place that uses a variable, which is a variable that is read or an assignment that is
written, in the order in which evaluation is done with them. Such a reference is conditional if
and only if the way down to its place leads into the right side of an operator that may leave it
unevaluated. With globals, what is added is the longest first part of that list with no other
names; and if anything is left, the answer is an error with the name and the line of the first
reference that is.
-/
theorem resolver_records_references :
    (∀ (scope : Scope) (earlier : List Expr) (e : Expr),
      let r := (Resolver.start scope).after earlier
      let fresh := (Resolver.start scope).resolve e
      let w := Walk.start.after scope earlier
      r.resolve e = (fresh.1, { r with references := r.references ++ fresh.2.references })
        ∧ w.depth = 0
        ∧ w.resolve scope e = (fresh.1, ⟨r.references ++ fresh.2.references, 0⟩))
    ∧ ∀ e : Expr, ∃ (all : List Reference) (places : List Place),
      (Resolver.start .anything).resolve e = (.ok (), ⟨.anything, all⟩)
        ∧ (places.Nodup ∧ places.Pairwise Place.Before)
        ∧ (∀ p, p ∈ places ↔ ∃ node, e.nodeAt? p = some node ∧ node.use?.isSome)
        ∧ List.Forall₂ (fun p r => e.UsesAt p r ∧ (r.conditional = true ↔ e.GuardedAt p)) places all
        ∧ ∀ names : List String, ∃ added left, all = added ++ left
          ∧ ((Resolver.start (.only names)).resolve e).2 = ⟨.only names, added⟩
          ∧ (∀ x ∈ added, x.name ∈ names)
          ∧ (∀ front, front <+: all → (∀ x ∈ front, x.name ∈ names) → front <+: added)
          ∧ (left = [] → ((Resolver.start (.only names)).resolve e).1 = .ok ())
          ∧ ∀ x later, left = x :: later →
            ((Resolver.start (.only names)).resolve e).1 = .error ⟨x.name, x.line⟩ := by
  refine ⟨fun scope earlier e => ?_, fun e => ?_⟩
  · intro r fresh w
    have hscope : r.scope = scope := (Resolver.start scope).after_scope earlier
    have hturn : r.resolve e
        = (fresh.1, { r with references := r.references ++ fresh.2.references }) := by
      rw [r.resolve_eq_start e, hscope]
    have hwalk : w = ⟨r.references, 0⟩ := (Resolver.start scope).after_counts earlier
    have hcounts := Walk.resolve_eq r e
    rw [hscope, hturn] at hcounts
    rw [hwalk]
    exact ⟨hturn, rfl, hcounts⟩
  · refine ⟨e.references false, e.places, Resolver.resolve_of_declared fun _ _ => rfl,
      ⟨e.places_pairwise.imp Place.Before.ne, e.places_pairwise⟩, e.mem_places, ?_, fun names => ?_⟩
    · exact (Expr.references_refer false e).imp fun p r h => ⟨h.1, h.2.trans (by simp)⟩
    · have hname : ∀ x : Reference, (Scope.only names).declares x.name = true ↔ x.name ∈ names :=
        fun x => List.contains_iff_mem
      rcases Resolver.declared_or_first (.only names) e with h | ⟨recorded, x, later, hsplit, h, hx⟩
      · have hresolve := Resolver.resolve_of_declared (r := .start (.only names)) h
        refine ⟨e.references false, [], (List.append_nil _).symm, by rw [hresolve]; rfl,
          ?_, ?_, ?_, ?_⟩
        · exact fun x hx => (hname x).mp (h x hx)
        · exact fun _ hfront _ => hfront
        · intro _
          rw [hresolve]
        · nofun
      · have hresolve := Resolver.resolve_of_undeclared (r := .start (.only names)) hsplit h hx
        refine ⟨recorded, x :: later, hsplit, by rw [hresolve]; rfl, ?_, ?_, nofun, ?_⟩
        · exact fun y hy => (hname y).mp (h y hy)
        · intro front hfront hnames
          rw [hsplit] at hfront
          exact prefix_of_all hfront (fun hmem => by rw [(hname x).mpr hmem] at hx; cases hx) hnames
        · intro y rest heq
          obtain ⟨rfl, _⟩ := List.cons.inj heq
          rw [hresolve]

/-- A resolver fails in the right side of `a or b`, and then records `a` once more without a
condition. -/
theorem resolver_records_references_after_failure :
    let word (name : String) : Token := ⟨.identifier, name, none, 1⟩
    let choice : Expr := .logical (.var (word "a")) ⟨.orWord, "or", none, 1⟩ (.var (word "b"))
    let a : Reference := ⟨"a", 1, .read, false⟩
    let w := Walk.start.after (.only ["a"]) [choice]
    ((Resolver.start (.only ["a"])).resolve choice).1 = .error ⟨"b", 1⟩
      ∧ w.depth = 0 ∧ w.resolve (.only ["a"]) (.var (word "a")) = (.ok (), ⟨[a, a], 0⟩) := by
  intro word choice a w
  obtain ⟨hturn, _⟩ := resolver_records_references
  obtain ⟨_, hdepth, hresolve⟩ := hturn (.only ["a"]) [choice] (.var (word "a"))
  exact ⟨rfl, hdepth, hresolve⟩

end Lox
