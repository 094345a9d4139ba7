import Lox.Proofs.Step
import Lox.Reference

/-!
# What a resolver records

The references of an expression are a list that can be written down without a resolver. A resolver
goes through that list from the front and stops at the first name its scope does not declare. So
what it has recorded at the end, and whether it fails, is a matter of the list alone.
-/

namespace Lox

/-! ## The references of an expression -/

namespace Expr

mutual

/-- All references of an expression, in the order in which evaluation would come to them. Under a
condition all of them are conditional. -/
def references (conditional : Bool) : Expr → List Reference
  | assign target _ value =>
    value.references conditional ++ [⟨target.lexeme, target.line, .write, conditional⟩]
  | binary left _ right => left.references conditional ++ right.references conditional
  | call callee arguments =>
    callee.references conditional ++ referencesOfList conditional arguments
  | get object _ => object.references conditional
  | grouping inner => inner.references conditional
  | literal _ => []
  | logical left _ right => left.references conditional ++ right.references true
  | set object _ value => object.references conditional ++ value.references conditional
  | unary _ right => right.references conditional
  | var name => [⟨name.lexeme, name.line, .read, conditional⟩]

/-- The references of several expressions, from left to right. -/
def referencesOfList (conditional : Bool) : List Expr → List Reference
  | [] => []
  | e :: es => e.references conditional ++ referencesOfList conditional es

end

/-! ## Which references are conditional -/

/-- No operator among these nodes may leave its right side unevaluated. -/
def Straight (nodes : List Expr) : Prop :=
  ∀ left operator right, logical left operator right ∉ nodes

namespace Straight

variable {node : Expr} {front later : List Expr}

theorem left (h : Straight (node :: (front ++ later))) : Straight front :=
  fun l o r hm => h l o r (List.mem_cons_of_mem _ (List.mem_append_left _ hm))

theorem right (h : Straight (node :: (front ++ later))) : Straight later :=
  fun l o r hm => h l o r (List.mem_cons_of_mem _ (List.mem_append_right _ hm))

theorem tail (h : Straight (node :: later)) : Straight later :=
  fun l o r hm => h l o r (List.mem_cons_of_mem _ hm)

end Straight

mutual

/-- Under a condition every reference is conditional. Without one, only an operator that may leave
its right side unevaluated makes any so. -/
theorem conditional_eq {c : Bool} {r : Reference} :
    ∀ {e : Expr}, c = true ∨ Straight e.nodes → r ∈ e.references c → r.conditional = c
  | assign _ _ _, h, hr => by
      rcases List.mem_append.mp hr with hr | hr
      · exact conditional_eq (h.imp_right fun hs => hs.tail.tail) hr
      · rw [List.mem_singleton.mp hr]
  | binary _ _ _, h, hr => by
      rcases List.mem_append.mp hr with hr | hr
      · exact conditional_eq (h.imp_right Straight.left) hr
      · exact conditional_eq (h.imp_right Straight.right) hr
  | call _ _, h, hr => by
      rcases List.mem_append.mp hr with hr | hr
      · exact conditional_eq (h.imp_right Straight.left) hr
      · exact conditional_eq_list (h.imp_right Straight.right) hr
  | get object _, h, hr => conditional_eq (e := object) (h.imp_right Straight.tail) hr
  | grouping inner, h, hr => conditional_eq (e := inner) (h.imp_right Straight.tail) hr
  | logical _ _ _, h, hr => by
      rcases h with rfl | hs
      · rcases List.mem_append.mp hr with hr | hr
        · exact conditional_eq (Or.inl rfl) hr
        · exact conditional_eq (Or.inl rfl) hr
      -- the expression itself is such an operator
      · exact absurd (List.mem_cons_self ..) (hs _ _ _)
  | set _ _ _, h, hr => by
      rcases List.mem_append.mp hr with hr | hr
      · exact conditional_eq (h.imp_right Straight.left) hr
      · exact conditional_eq (h.imp_right Straight.right) hr
  | unary _ right, h, hr => conditional_eq (e := right) (h.imp_right Straight.tail) hr
  | var _, _, hr => by rw [List.mem_singleton.mp hr]

theorem conditional_eq_list {c : Bool} {r : Reference} :
    ∀ {es : List Expr}, c = true ∨ Straight (nodesOfList es) → r ∈ referencesOfList c es →
      r.conditional = c
  | _ :: _, h, hr => by
      rcases List.mem_append.mp hr with hr | hr
      · exact conditional_eq
          (h.imp_right fun hs l o x hm => hs l o x (List.mem_append_left _ hm)) hr
      · exact conditional_eq_list
          (h.imp_right fun hs l o x hm => hs l o x (List.mem_append_right _ hm)) hr

end

end Expr

/-! ## A resolver goes through the references -/

namespace Resolve

variable {scope : Scope} {conditional : Bool} {access : Access} {name : Token}

/-- Records a reference, if its name is declared. -/
def add (scope : Scope) (r : Reference) : Resolve Unit := do
  if scope.declares r.name then modify (· ++ [r]) else throw ⟨r.name, r.line⟩

theorem record_eq_forM :
    record scope conditional access name
      = forM [⟨name.lexeme, name.line, access, conditional⟩] (add scope) := by
  rw [List.forM_cons, List.forM_nil, bind_pure_unit]
  rfl

mutual

/-- **A resolver does with an expression what it does with the list of its references.** -/
theorem expr_eq_forM (scope : Scope) :
    ∀ (conditional : Bool) (e : Expr),
      expr scope conditional e = forM (e.references conditional) (add scope)
  | c, .assign target _ value => by
      rw [expr, expr_eq_forM scope c value, record_eq_forM, Expr.references, List.forM_append]
  | c, .binary left _ right => by
      rw [expr, expr_eq_forM scope c left, expr_eq_forM scope c right, Expr.references,
        List.forM_append]
  | c, .call callee arguments => by
      rw [expr, expr_eq_forM scope c callee, exprs_eq_forM scope c arguments, Expr.references,
        List.forM_append]
  | c, .get object _ => expr_eq_forM scope c object
  | c, .grouping inner => expr_eq_forM scope c inner
  | _, .literal _ => rfl
  | c, .logical left _ right => by
      -- the right side is under a condition, whatever the whole is under
      rw [expr, expr_eq_forM scope c left, expr_eq_forM scope true right, Expr.references,
        List.forM_append]
  | c, .set object _ value => by
      rw [expr, expr_eq_forM scope c object, expr_eq_forM scope c value, Expr.references,
        List.forM_append]
  | c, .unary _ right => expr_eq_forM scope c right
  | _, .var _ => record_eq_forM

theorem exprs_eq_forM (scope : Scope) :
    ∀ (conditional : Bool) (es : List Expr),
      exprs scope conditional es = forM (Expr.referencesOfList conditional es) (add scope)
  | _, [] => rfl
  | c, e :: es => by
      rw [exprs, expr_eq_forM scope c e, exprs_eq_forM scope c es, Expr.referencesOfList,
        List.forM_append]

end

/-! ## What is recorded in the end -/

theorem add_of_declared {r : Reference} (h : scope.declares r.name = true)
    (before : List Reference) : add scope r before = .ok () (before ++ [r]) :=
  congrFun (if_pos h) before

theorem add_of_undeclared {r : Reference} (h : ¬scope.declares r.name = true)
    (before : List Reference) : add scope r before = .error ⟨r.name, r.line⟩ before :=
  congrFun (if_neg h) before

/-- If all names are declared, all references are recorded. -/
theorem forM_add_of_declared {rs : List Reference}
    (h : ∀ r ∈ rs, scope.declares r.name = true) (before : List Reference) :
    forM rs (add scope) before = .ok () (before ++ rs) := by
  induction rs generalizing before with
  | nil => rw [List.append_nil]; rfl
  | cons r rs ih =>
      have hr := add_of_declared (h r (List.mem_cons_self ..)) before
      have hrs := ih (fun s hs => h s (List.mem_cons_of_mem _ hs)) (before ++ [r])
      rw [List.append_assoc] at hrs
      rw [List.forM_cons, Step.bind_of_ok hr]
      exact hrs

/-- Otherwise those before the first undeclared name are. -/
theorem forM_add_of_undeclared {rs later : List Reference} {r : Reference}
    (h : ∀ r ∈ rs, scope.declares r.name = true) (hr : ¬scope.declares r.name = true)
    (before : List Reference) :
    forM (rs ++ r :: later) (add scope) before = .error ⟨r.name, r.line⟩ (before ++ rs) := by
  rw [List.forM_append, Step.bind_of_ok (forM_add_of_declared h before), List.forM_cons]
  exact Step.bind_of_error (add_of_undeclared hr _)

end Resolve

namespace Resolver

variable {r : Resolver} {e : Expr}

/-- Only the references of an expression matter to a resolver. -/
theorem resolve_congr {e' : Expr} (h : e.references false = e'.references false) (r : Resolver) :
    r.resolve e = r.resolve e' := by
  unfold resolve
  rw [Resolve.expr_eq_forM, Resolve.expr_eq_forM, h]

/-- A resolver that declares all names of an expression records all of its references. -/
theorem resolve_of_declared (h : ∀ x ∈ e.references false, r.scope.declares x.name = true) :
    r.resolve e = (.ok (), { r with references := r.references ++ e.references false }) := by
  unfold resolve
  rw [Resolve.expr_eq_forM, Resolve.forM_add_of_declared h]

/-- A resolver that comes to a name it does not declare has recorded the references before it. -/
theorem resolve_of_undeclared {recorded later : List Reference} {x : Reference}
    (hsplit : e.references false = recorded ++ x :: later)
    (hdeclared : ∀ y ∈ recorded, r.scope.declares y.name = true)
    (hundeclared : r.scope.declares x.name = false) :
    r.resolve e = (.error ⟨x.name, x.line⟩, { r with references := r.references ++ recorded }) := by
  unfold resolve
  rw [Resolve.expr_eq_forM, hsplit,
    Resolve.forM_add_of_undeclared hdeclared (by rw [hundeclared]; decide)]

/-- Either all names of an expression are declared, or one of them is the first that is not. -/
theorem declared_or_first (scope : Scope) (e : Expr) :
    (∀ x ∈ e.references false, scope.declares x.name = true)
    ∨ ∃ recorded x later, e.references false = recorded ++ x :: later
      ∧ (∀ y ∈ recorded, scope.declares y.name = true) ∧ scope.declares x.name = false := by
  cases hfind : (e.references false).find? (fun x => !scope.declares x.name) with
  | none =>
      refine Or.inl fun x hx => ?_
      simpa using List.find?_eq_none.mp hfind x hx
  | some x =>
      obtain ⟨hx, recorded, later, hsplit, hfront⟩ := List.find?_eq_some_iff_append.mp hfind
      refine Or.inr ⟨recorded, x, later, hsplit, fun y hy => ?_, by simpa using hx⟩
      simpa using hfront y hy

/-- **The two things that can come out of a resolver.** Either all names are declared, or it fails
at the first one that is not and has recorded the references before it. -/
theorem resolve_cases (r : Resolver) (e : Expr) :
    ((∀ x ∈ e.references false, r.scope.declares x.name = true)
      ∧ r.resolve e = (.ok (), { r with references := r.references ++ e.references false }))
    ∨ ∃ recorded x later, e.references false = recorded ++ x :: later
      ∧ r.scope.declares x.name = false
      ∧ r.resolve e
        = (.error ⟨x.name, x.line⟩, { r with references := r.references ++ recorded }) := by
  rcases declared_or_first r.scope e with h | ⟨recorded, x, later, hsplit, hdeclared, hx⟩
  · exact Or.inl ⟨h, resolve_of_declared h⟩
  · exact Or.inr ⟨recorded, x, later, hsplit, hx, resolve_of_undeclared hsplit hdeclared hx⟩

/-- A resolver that does not fail declares all names of the expression. -/
theorem declared_of_resolve (h : (r.resolve e).1 = .ok ()) :
    ∀ x ∈ e.references false, r.scope.declares x.name = true := by
  rcases resolve_cases r e with ⟨hdeclared, _⟩ | ⟨_, _, _, _, _, hresolve⟩
  · exact hdeclared
  · rw [hresolve] at h
    cases h

/-- Whether or not it fails, a resolver adds references of the expression, from the first one on. -/
theorem references_resolve (r : Resolver) (e : Expr) :
    ∃ recorded, recorded <+: e.references false
      ∧ (r.resolve e).2.references = r.references ++ recorded := by
  rcases resolve_cases r e with ⟨_, hresolve⟩ | ⟨recorded, x, later, hsplit, _, hresolve⟩
  · exact ⟨_, List.prefix_rfl, by rw [hresolve]⟩
  · exact ⟨recorded, ⟨x :: later, hsplit.symm⟩, by rw [hresolve]⟩

end Resolver

end Lox
