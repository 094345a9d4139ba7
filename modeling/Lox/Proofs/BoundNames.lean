import Lox.Proofs.References
import Lox.Session

/-!
# Which variables have to be bound

Can a resolver that knows the bound variables rule out that evaluation comes to one that is not?
Nothing that is evaluated binds a name or unbinds one, so what is bound at first is bound at every
later step, also of later evaluations and also behind an error.

`Needs host step rs` is what a single step tells about the references `rs`. If it succeeds, all of
them that are not conditional are bound. If it fails at a variable, one of them is not bound. A
function of the host could fail that way without any variable, which is left out by `Host.Tame`.
-/

namespace Lox

/-! ## Bound names -/

namespace Memory

/-- Whether a variable is bound. -/
def Binds (m : Memory) (name : String) : Prop := m.globals.contains name = true

/-- The same variables are bound. -/
def SameNames (m m' : Memory) : Prop := ∀ name, m'.Binds name ↔ m.Binds name

variable {m m' m'' : Memory}

theorem SameNames.refl : SameNames m m := fun _ => Iff.rfl

theorem SameNames.trans (h : SameNames m m') (h' : SameNames m' m'') : SameNames m m'' :=
  fun name => (h' name).trans (h name)

end Memory

namespace Environment

variable {env env' : Environment} {name : Token} {object : Object}

theorem find?_define (env : Environment) (name other : String) (object : Object) :
    (env.define name object).find? other = if other = name then some object else env.find? other :=
  Bindings.get?_put env.bindings name other object

/-- A variable that can be read is bound. -/
theorem contains_of_get (h : env.get name = .ok object) : env.contains name.lexeme = true := by
  unfold get at h
  show (env.bindings.get? name.lexeme).isSome = true
  cases hfind : env.bindings.get? name.lexeme with
  | some found => rfl
  | none =>
      rw [show env.find? name.lexeme = none from hfind] at h
      cases h

/-- A variable that cannot be read is not bound. -/
theorem not_contains_of_get {error : RuntimeError} (h : env.get name = .error error) :
    env.contains name.lexeme = false
      ∧ error = .undefinedVariable name.lexeme name.line := by
  unfold get at h
  show (env.bindings.get? name.lexeme).isSome = false ∧ _
  cases hfind : env.bindings.get? name.lexeme with
  | some found =>
      rw [show env.find? name.lexeme = some found from hfind] at h
      cases h
  | none =>
      rw [show env.find? name.lexeme = none from hfind] at h
      cases h
      exact ⟨rfl, rfl⟩

/-- An assignment binds a bound variable anew, and so binds no other names than before. -/
theorem contains_assign (h : env.assign name object = .ok env') :
    env.contains name.lexeme = true ∧ ∀ other, env'.contains other = env.contains other := by
  unfold assign at h
  by_cases hname : env.contains name.lexeme = true
  · rw [if_pos hname] at h
    cases h
    -- the one name that is bound anew was bound before
    refine ⟨hname, fun other => ?_⟩
    show (env.bindings.put name.lexeme object).contains other = _
    rw [Bindings.contains_put]
    by_cases hother : other = name.lexeme
    · rw [hother]
      exact (Bool.or_eq_true_iff.mpr (Or.inr hname)).trans hname.symm
    · rw [decide_eq_false hother]
      rfl
  · rw [if_neg hname] at h
    cases h

/-- An assignment that fails is one to a variable that is not bound. -/
theorem not_contains_of_assign {error : RuntimeError}
    (h : env.assign name object = .error error) :
    env.contains name.lexeme = false
      ∧ error = .undefinedVariable name.lexeme name.line := by
  unfold assign at h
  by_cases hname : env.contains name.lexeme = true
  · rw [if_pos hname] at h
    cases h
  · rw [if_neg hname] at h
    cases h
    exact ⟨Bool.eq_false_iff.mpr hname, rfl⟩

end Environment

/-! ## Errors that name no variable -/

/-- The error is not about a variable. -/
def RuntimeError.Other (error : RuntimeError) : Prop :=
  ∀ name line, error ≠ .undefinedVariable name line

/-- No function of the host fails with an undefined variable. -/
def Host.Tame (host : Host) : Prop :=
  ∀ moment number arguments heap error heap',
    host.behaviour moment number arguments heap = .error error heap' → error.Other

namespace Eval

variable {operator : Token} {left right : Object} {error : RuntimeError}

theorem add_other (h : add operator left right = .error error) : error.Other := by
  unfold add at h
  split at h <;> cases h
  nofun

theorem onNumbers_other {operation : Float → Float → Object}
    (h : onNumbers operator left right operation = .error error) : error.Other := by
  unfold onNumbers at h
  split at h <;> cases h
  nofun

theorem binary_other (h : binary operator left right = .error error) : error.Other := by
  unfold binary at h
  split at h
  case h_1 => exact add_other h
  case h_9 => cases h
  case h_10 => cases h
  case h_11 => cases h; nofun
  all_goals exact onNumbers_other h

theorem unary_other (h : unary operator right = .error error) : error.Other := by
  unfold unary at h
  split at h
  · split at h <;> cases h
    nofun
  · cases h
  · cases h
    nofun

theorem settles_other (h : settles operator left = .error error) : error.Other := by
  unfold settles at h
  split at h <;> cases h
  nofun

end Eval

/-! ## Steps that need variables -/

/-- A step binds no name and unbinds none. If it succeeds, all references of the list that are not
conditional are to bound variables, and if it fails at a variable, that is a reference of the list
to a variable that is not bound. -/
def Needs {α : Type} (host : Host) (step : Eval α) (rs : List Reference) : Prop :=
  ∀ m, match step m with
    | .ok _ m' => m.SameNames m' ∧ ∀ r ∈ rs, r.conditional = false → m.Binds r.name
    | .error error m' => m.SameNames m' ∧ (host.Tame → error.Other
        ∨ ∃ r ∈ rs, error = .undefinedVariable r.name r.line ∧ ¬m.Binds r.name)

namespace Needs

variable {α β : Type} {host : Host} {step : Eval α} {rs later : List Reference}

/-- A step that only goes well and binds no name. -/
theorem of_ok (h : ∀ m, ∃ a m', step m = .ok a m' ∧ m.SameNames m') : Needs host step [] := by
  intro m
  obtain ⟨a, m', hstep, hnames⟩ := h m
  rw [hstep]
  exact ⟨hnames, fun _ hr => absurd hr List.not_mem_nil⟩

theorem pure (a : α) : Needs host (Pure.pure a) [] :=
  of_ok fun m => ⟨a, m, rfl, Memory.SameNames.refl⟩

theorem throw {error : RuntimeError} (h : error.Other) (rs : List Reference) :
    Needs host (MonadExcept.throw error : Eval α) rs :=
  fun _ => ⟨Memory.SameNames.refl, fun _ => Or.inl h⟩

/-- Nothing is said about conditional references to a step that succeeds. -/
theorem skip (h : Needs host step []) (hc : ∀ r ∈ rs, r.conditional = true) :
    Needs host step rs := by
  intro m
  have hm := h m
  cases hstep : step m with
  | ok a m' =>
      rw [hstep] at hm
      refine ⟨hm.1, fun r hr hfalse => ?_⟩
      rw [hc r hr] at hfalse
      cases hfalse
  | error error m' =>
      rw [hstep] at hm
      refine ⟨hm.1, fun htame => ?_⟩
      rcases hm.2 htame with hother | ⟨r, hr, _⟩
      · exact Or.inl hother
      · exact absurd hr List.not_mem_nil

/-- The second of two steps finds the same variables bound as the first one. -/
theorem bind {step' : α → Eval β} (h : Needs host step rs)
    (h' : ∀ a, Needs host (step' a) later) : Needs host (step >>= step') (rs ++ later) := by
  intro m
  have hm := h m
  cases hstep : step m with
  | error error m' =>
      rw [hstep] at hm
      rw [Step.bind_of_error hstep]
      refine ⟨hm.1, fun htame => (hm.2 htame).imp_right ?_⟩
      rintro ⟨r, hr, hfails⟩
      exact ⟨r, List.mem_append_left _ hr, hfails⟩
  | ok a m' =>
      rw [hstep] at hm
      obtain ⟨hnames, hbound⟩ := hm
      have hm' := h' a m'
      rw [Step.bind_of_ok hstep]
      cases hstep' : step' a m' with
      | ok b m'' =>
          -- what the second step finds bound was bound before the first one
          rw [hstep'] at hm'
          refine ⟨hnames.trans hm'.1, fun r hr hfalse => ?_⟩
          rcases List.mem_append.mp hr with hr | hr
          · exact hbound r hr hfalse
          · exact (hnames r.name).mp (hm'.2 r hr hfalse)
      | error error m'' =>
          rw [hstep'] at hm'
          refine ⟨hnames.trans hm'.1, fun htame => (hm'.2 htame).imp_right ?_⟩
          rintro ⟨r, hr, herror, hunbound⟩
          exact ⟨r, List.mem_append_right _ hr, herror,
            fun hbinds => hunbound ((hnames r.name).mpr hbinds)⟩

/-- A step behind which no variable is needed. -/
theorem bind_nil {step' : α → Eval β} (h : Needs host step rs)
    (h' : ∀ a, Needs host (step' a) []) : Needs host (step >>= step') rs := by
  have hboth := h.bind h'
  rwa [List.append_nil] at hboth

/-- An operation on objects, whose errors are not about variables. -/
theorem ofExcept {result : Except RuntimeError α}
    (h : ∀ error, result = .error error → error.Other) :
    Needs host (MonadExcept.ofExcept result) [] := by
  cases result with
  | ok a => exact pure a
  | error error => exact throw (h error rfl) []

theorem readVariable (name : Token) (conditional : Bool) :
    Needs host (Eval.readVariable name) [⟨name.lexeme, name.line, .read, conditional⟩] := by
  intro m
  unfold Eval.readVariable
  cases hget : m.globals.get name with
  | ok object =>
      refine ⟨Memory.SameNames.refl, fun r hr _ => ?_⟩
      rw [List.mem_singleton.mp hr]
      exact Environment.contains_of_get hget
  | error error =>
      obtain ⟨hname, rfl⟩ := Environment.not_contains_of_get hget
      refine ⟨Memory.SameNames.refl, fun _ => Or.inr ⟨_, List.mem_singleton.mpr rfl, rfl, ?_⟩⟩
      exact Bool.eq_false_iff.mp hname

theorem assignVariable (name : Token) (object : Object) (conditional : Bool) :
    Needs host (Eval.assignVariable name object)
      [⟨name.lexeme, name.line, .write, conditional⟩] := by
  intro m
  unfold Eval.assignVariable
  cases hassign : m.globals.assign name object with
  | ok globals =>
      obtain ⟨hname, hother⟩ := Environment.contains_assign hassign
      refine ⟨fun other => ?_, fun r hr _ => ?_⟩
      · show globals.contains other = true ↔ m.globals.contains other = true
        rw [hother]
      · rw [List.mem_singleton.mp hr]
        exact hname
  | error error =>
      obtain ⟨hname, rfl⟩ := Environment.not_contains_of_assign hassign
      refine ⟨Memory.SameNames.refl, fun _ => Or.inr ⟨_, List.mem_singleton.mpr rfl, rfl, ?_⟩⟩
      exact Bool.eq_false_iff.mp hname

theorem call (line : Nat) (callee : Object) (arguments : List Object) :
    Needs host (Eval.call host line callee arguments) [] := by
  unfold Eval.call
  cases callee with
  | function f =>
      by_cases hlen : arguments.length = f.arity
      · dsimp only
        rw [if_pos hlen]
        intro m
        unfold Eval.run
        cases hrun : host.behaviour m.moment f.number arguments m.heap with
        | ok object heap =>
            exact ⟨Memory.SameNames.refl, fun _ hr => absurd hr List.not_mem_nil⟩
        | error error heap =>
            exact ⟨Memory.SameNames.refl, fun htame => Or.inl (htame _ _ _ _ _ _ hrun)⟩
      · dsimp only
        rw [if_neg hlen]
        exact throw (by nofun) []
  | _ => exact throw (by nofun) []

theorem getProperty (object : Object) (name : Token) :
    Needs host (Eval.getProperty object name) [] := by
  cases object with
  | inst ref =>
      have hget : Needs host (get : Eval Memory) [] :=
        of_ok fun m => ⟨m, m, rfl, Memory.SameNames.refl⟩
      refine hget.bind fun m => ?_
      cases m.heap.field? ref name.lexeme with
      | some contents => exact pure contents
      | none => exact throw (by nofun) []
  | _ => exact throw (by nofun) []

theorem setField (ref : Nat) (name : String) (contents : Object) :
    Needs host (modify fun m => { m with heap := m.heap.setField ref name contents }) [] :=
  of_ok fun _ => ⟨(), _, rfl, Memory.SameNames.refl⟩

end Needs

/-! ## Every expression -/

open Lox.Expr (references referencesOfList)

mutual

/-- **An expression needs its references.** -/
theorem expr_needs (host : Host) :
    ∀ (conditional : Bool) (e : Expr), Needs host (Eval.expr host e) (references conditional e)
  | c, .assign target operator value => by
      rw [Eval.expr, references]
      refine (expr_needs host c value).bind fun object => ?_
      exact (Needs.assignVariable target object c).bind fun _ => Needs.pure object
  | c, .binary left operator right => by
      rw [Eval.expr, references]
      refine (expr_needs host c left).bind fun first => ?_
      refine (expr_needs host c right).bind_nil fun second => ?_
      exact Needs.ofExcept fun _ h => Eval.binary_other h
  | c, .call callee arguments => by
      rw [Eval.expr, references]
      refine (expr_needs host c callee).bind fun function => ?_
      exact (exprs_need host c arguments).bind_nil fun objects => Needs.call _ function objects
  | c, .get object name => by
      rw [Eval.expr, references]
      exact (expr_needs host c object).bind_nil fun first => Needs.getProperty first name
  | c, .grouping inner => by
      rw [Eval.expr, references]
      exact expr_needs host c inner
  | c, .literal value => Needs.pure _
  | c, .logical left operator right => by
      rw [Eval.expr, references]
      refine (expr_needs host c left).bind fun first => ?_
      have hsettles : Needs host (MonadExcept.ofExcept (Eval.settles operator first)) [] :=
        Needs.ofExcept fun _ h => Eval.settles_other h
      refine hsettles.bind fun settled => ?_
      cases settled with
      | true => exact (Needs.pure first).skip fun r hr => Expr.conditional_eq (Or.inl rfl) hr
      | false => exact expr_needs host true right
  | c, .set object name value => by
      rw [Eval.expr, references]
      refine (expr_needs host c object).bind fun first => ?_
      cases first with
      | inst ref =>
          refine (expr_needs host c value).bind_nil fun contents => ?_
          exact (Needs.setField ref name.lexeme contents).bind_nil fun _ => Needs.pure contents
      | _ => exact Needs.throw (by nofun) _
  | c, .unary operator right => by
      rw [Eval.expr, references]
      refine (expr_needs host c right).bind_nil fun operand => ?_
      exact Needs.ofExcept fun _ h => Eval.unary_other h
  | c, .var name => Needs.readVariable name c

theorem exprs_need (host : Host) :
    ∀ (conditional : Bool) (es : List Expr),
      Needs host (Eval.exprs host es) (referencesOfList conditional es)
  | c, [] => Needs.pure _
  | c, e :: es => by
      rw [Eval.exprs, referencesOfList]
      refine (expr_needs host c e).bind fun object => ?_
      exact (exprs_need host c es).bind_nil fun objects => Needs.pure (object :: objects)

end

/-! ## Sessions -/

namespace Session

variable {s : Session} {e : Expr}

/-- The session after some more evaluations, whether or not they succeed. -/
def after (s : Session) (es : List Expr) : Session := es.foldl (fun s e => (s.evaluate e).2) s

theorem evaluate_names (s : Session) (e : Expr) :
    s.memory.SameNames (s.evaluate e).2.memory ∧ (s.evaluate e).2.host = s.host := by
  have hneeds := expr_needs s.host false e s.memory
  unfold evaluate
  cases hstep : Eval.expr s.host e s.memory with
  | ok object m => rw [hstep] at hneeds; exact ⟨hneeds.1, rfl⟩
  | error error m => rw [hstep] at hneeds; exact ⟨hneeds.1, rfl⟩

/-- What is bound stays bound, and nothing else comes to be bound, over any number of
evaluations. -/
theorem after_names (s : Session) (es : List Expr) :
    s.memory.SameNames (s.after es).memory ∧ (s.after es).host = s.host := by
  induction es generalizing s with
  | nil => exact ⟨Memory.SameNames.refl, rfl⟩
  | cons e es ih =>
      obtain ⟨hnames, hhost⟩ := evaluate_names s e
      obtain ⟨hnames', hhost'⟩ := ih (s.evaluate e).2
      exact ⟨hnames.trans hnames', hhost'.trans hhost⟩

/-- An evaluation that fails at a variable has come to a reference to one that is not bound. -/
theorem undefined_of_evaluate {name : String} {line : Nat} (hhost : s.host.Tame)
    (h : (s.evaluate e).1 = .error (.undefinedVariable name line)) :
    ∃ r ∈ e.references false, r.name = name ∧ r.line = line ∧ ¬s.memory.Binds name := by
  have hneeds := expr_needs s.host false e s.memory
  unfold evaluate at h
  cases hstep : Eval.expr s.host e s.memory with
  | ok object m => rw [hstep] at h; cases h
  | error error m =>
      rw [hstep] at h hneeds
      cases h
      rcases hneeds.2 hhost with hother | ⟨r, hr, herror, hunbound⟩
      · exact absurd rfl (hother name line)
      · cases herror
        exact ⟨r, hr, rfl, rfl, hunbound⟩

/-- An evaluation that succeeds has found all variables bound that it cannot leave out. -/
theorem bound_of_evaluate {object : Object} (h : (s.evaluate e).1 = .ok object) :
    ∀ r ∈ e.references false, r.conditional = false → s.memory.Binds r.name := by
  have hneeds := expr_needs s.host false e s.memory
  unfold evaluate at h
  cases hstep : Eval.expr s.host e s.memory with
  | ok object m => rw [hstep] at hneeds; exact hneeds.2
  | error error m => rw [hstep] at h; cases h

end Session

/--
**What a strict resolver accepts does not fail at a variable.**

If all names of a list are bound in a session, then an expression that a resolver for these names
accepts is never evaluated to an undefined variable, whatever was evaluated before. The other way
round, an evaluation that succeeds shows that the variables are bound which a resolver reports
without a condition.
-/
theorem strict_resolver_sound :
    (∀ (s : Session) (names : List String), s.host.Tame → (∀ name ∈ names, s.memory.Binds name) →
      ∀ (earlier : List Expr) (r : Resolver) (e : Expr), r.scope = .only names →
        (r.resolve e).1 = .ok () → ∀ name line,
          ((s.after earlier).evaluate e).1 ≠ .error (.undefinedVariable name line))
    ∧ ∀ (s : Session) (e : Expr) (object : Object), (s.evaluate e).1 = .ok object →
      ∀ scope, ∀ r ∈ ((Resolver.start scope).resolve e).2.references, r.conditional = false →
        s.memory.Binds r.name := by
  refine ⟨?_, ?_⟩
  · intro s names hhost hbound earlier r e hscope haccepts name line hfails
    obtain ⟨hnames, hsame⟩ := Session.after_names s earlier
    obtain ⟨x, hx, rfl, rfl, hunbound⟩ := Session.undefined_of_evaluate (hsame ▸ hhost) hfails
    have hdeclared : r.scope.declares x.name = true := Resolver.declared_of_resolve haccepts x hx
    rw [hscope] at hdeclared
    -- the name is declared, and so it is bound, before and after the earlier evaluations
    have hmem : x.name ∈ names := List.contains_iff_mem.mp hdeclared
    exact hunbound ((hnames x.name).mpr (hbound x.name hmem))
  · intro s e object hok scope r hr hfalse
    obtain ⟨recorded, hfirst, hrecorded⟩ := Resolver.references_resolve (.start scope) e
    rw [hrecorded] at hr
    exact Session.bound_of_evaluate hok r (hfirst.subset hr) hfalse

/-- A variable is assigned to itself, after an evaluation that failed at its object. -/
theorem strict_resolver_sound_nil :
    let a : Token := ⟨.identifier, "a", none, 1⟩
    let s := Session.empty.define "a" .nil
    let negation : Expr := .unary ⟨.minus, "-", none, 1⟩ (.var a)
    let e : Expr := .assign a ⟨.equal, "=", none, 1⟩ (.var a)
    (s.evaluate negation).1 = .error (.operandNotNumber 1)
      ∧ (s.host.Tame ∧ (∀ name ∈ ["a"], s.memory.Binds name)
        ∧ ((Resolver.start (.only ["a"])).resolve e).1 = .ok ()
        ∧ ∀ name line, ((s.after [negation]).evaluate e).1 ≠ .error (.undefinedVariable name line))
      ∧ (s.evaluate e).1 = .ok .nil
      ∧ ∀ r ∈ ((Resolver.start .anything).resolve e).2.references, r.conditional = false →
        s.memory.Binds r.name := by
  intro a s negation e
  have htame : s.host.Tame := by
    intro _ _ _ _ _ _ h
    cases h
  have hbound : ∀ name ∈ ["a"], s.memory.Binds name := by
    intro name hname
    rw [List.mem_singleton.mp hname]
    rfl
  have haccepts : ((Resolver.start (.only ["a"])).resolve e).1 = .ok () := rfl
  have hok : (s.evaluate e).1 = .ok .nil := rfl
  refine ⟨rfl, ⟨htame, hbound, haccepts, ?_⟩, hok, ?_⟩
  · exact strict_resolver_sound.1 s ["a"] htame hbound [negation] _ e rfl haccepts
  · exact strict_resolver_sound.2 s e .nil hok .anything

end Lox
