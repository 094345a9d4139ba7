import Lox.Proofs.Frame

/-!
# What setting a property changes

Instances are shared: variables and fields can refer to one instance, also fields of its own. Which
of them sees it when a property is set? The instance is found before the value is evaluated, and the
value may then bind the variable it was found in to something else, set fields of the instance, or
be the instance. None of this matters. One field of the instance that was found has the value in the
end, and everything else is as the value has left it.

`Memory.Sets` says what is different between two memories, and `Memory.LeadsTo` which object is
found along a path. So a property that has been set is found along every path to its instance.
-/

namespace Lox

/-! ## One field and nothing else -/

/-- In the second memory a field of an instance has these contents, and otherwise it is the
first. -/
structure Memory.Sets (ref : Nat) (name : String) (contents : Object) (m m' : Memory) : Prop where
  globals : m'.globals = m.globals
  moment : m'.moment = m.moment
  field : m'.heap.field? ref name = some contents
  otherFields : ∀ other, other ≠ name → m'.heap.field? ref other = m.heap.field? ref other
  className : (m'.heap.read ref).className = (m.heap.read ref).className
  otherInstances : ∀ other, other ≠ ref →
    m'.heap.instances.get? other = m.heap.instances.get? other

theorem Heap.className_setField (h : Heap) (ref : Nat) (name : String) (contents : Object) :
    ((h.setField ref name contents).read ref).className = (h.read ref).className := by
  rw [setField, read_write_self]

theorem Memory.sets_setField (m : Memory) (ref : Nat) (name : String) (contents : Object) :
    m.Sets ref name contents { m with heap := m.heap.setField ref name contents } where
  globals := rfl
  moment := rfl
  field := m.heap.field?_setField_self ref name contents
  otherFields := fun _ hne => m.heap.field?_setField_of_ne ref contents hne
  className := m.heap.className_setField ref name contents
  otherInstances := fun _ hne => Bindings.get?_put_of_ne m.heap.instances _ hne

/-! ## Paths -/

/-- What a path leads to. It starts at a variable, and each further name is that of a field of the
instance it has come to. -/
inductive Memory.LeadsTo (m : Memory) : Expr → Object → Prop where
  | var {name : Token} {object : Object} :
      m.globals.find? name.lexeme = some object → LeadsTo m (.var name) object
  | get {path : Expr} {ref : Nat} {name : Token} {object : Object} :
      LeadsTo m path (.inst ref) → m.heap.field? ref name.lexeme = some object →
      LeadsTo m (.get path name) object

namespace Eval

variable {host : Host} {m : Memory}

theorem readVariable_of_find? {name : Token} {object : Object}
    (h : m.globals.find? name.lexeme = some object) : readVariable name m = .ok object m := by
  unfold readVariable Environment.get
  rw [h]

/-- **A path is evaluated to what it leads to**, and nothing changes on the way. -/
theorem expr_of_leadsTo {path : Expr} {object : Object} (h : m.LeadsTo path object) :
    expr host path m = .ok object m := by
  induction h with
  | var hfind => exact readVariable_of_find? hfind
  | get _ hfield ih =>
      rw [expr]
      exact Step.bind_ok ih (getProperty_of_field hfield)

/-! ## The three steps of a property that is set -/

variable {o v : Expr} {n : Token}

/-- Behind an instance, the value is evaluated and then written. -/
theorem expr_set_of_inst {m₁ : Memory} {ref : Nat} (h : expr host o m = .ok (.inst ref) m₁) :
    expr host (.set o n v) m = (expr host v >>= fun contents => do
      modify fun m => { m with heap := m.heap.setField ref n.lexeme contents }
      return contents) m₁ := by
  rw [expr, Step.bind_of_ok h]

/-- Behind anything else nothing is done. -/
theorem expr_set_of_other {m₁ : Memory} {object : Object} (h : expr host o m = .ok object m₁)
    (hother : ∀ ref, object ≠ .inst ref) :
    expr host (.set o n v) m = .error (.noFields n.line) m₁ := by
  rw [expr, Step.bind_of_ok h]
  cases object with
  | inst ref => exact absurd rfl (hother ref)
  | _ => rfl

/-- **A property is set if an instance is found and the value is evaluated**, and then the one field
is written in the memory that the value has left. -/
theorem expr_set_eq_ok {result : Object} {m' : Memory} :
    expr host (.set o n v) m = .ok result m' ↔
      ∃ ref m₁ m₂, expr host o m = .ok (.inst ref) m₁ ∧ expr host v m₁ = .ok result m₂
        ∧ m' = { m₂ with heap := m₂.heap.setField ref n.lexeme result } := by
  constructor
  · intro h
    cases ho : expr host o m with
    | error error m₁ =>
        rw [expr, Step.bind_of_error ho] at h
        cases h
    | ok object m₁ =>
        cases object with
        | inst ref =>
            rw [expr_set_of_inst ho] at h
            obtain ⟨contents, m₂, hv, h⟩ := Step.bind_eq_ok.mp h
            cases h
            exact ⟨ref, m₁, m₂, rfl, hv, rfl⟩
        | value w =>
            rw [expr_set_of_other ho (by nofun)] at h
            cases h
        | function f =>
            rw [expr_set_of_other ho (by nofun)] at h
            cases h
  · intro h
    obtain ⟨ref, m₁, m₂, ho, hv, rfl⟩ := h
    rw [expr_set_of_inst ho]
    exact Step.bind_ok hv rfl

end Eval

/-! ## Sessions -/

namespace Session

variable {s : Session} {e : Expr} {object : Object}

theorem evaluate_of_expr {m : Memory} (h : Eval.expr s.host e s.memory = .ok object m) :
    s.evaluate e = (.ok object, { s with memory := m }) := by
  rw [evaluate_eq, h]
  rfl

theorem evaluate_of_error {error : RuntimeError} {m : Memory}
    (h : Eval.expr s.host e s.memory = .error error m) :
    s.evaluate e = (.error error, { s with memory := m }) := by
  rw [evaluate_eq, h]
  rfl

/-- What a session answers was found by a step in its memory. -/
theorem exists_of_evaluate (h : (s.evaluate e).1 = .ok object) :
    ∃ m, Eval.expr s.host e s.memory = .ok object m
      ∧ s.evaluate e = (.ok object, { s with memory := m }) := by
  cases hstep : Eval.expr s.host e s.memory with
  | ok found m =>
      have heq := evaluate_of_expr hstep
      rw [heq] at h
      cases h
      exact ⟨m, rfl, heq⟩
  | error error m =>
      rw [evaluate_of_error hstep] at h
      cases h

variable {o v : Expr} {n : Token} {s₁ s₂ : Session} {ref : Nat} {result : Object}

theorem evaluate_set (ho : s.evaluate o = (.ok (.inst ref), s₁))
    (hv : s₁.evaluate v = (.ok result, s₂)) :
    s.evaluate (.set o n v)
      = (.ok result, { s₂ with
          memory := { s₂.memory with heap := s₂.memory.heap.setField ref n.lexeme result } }) := by
  obtain ⟨m₁, hstep, heq⟩ := exists_of_evaluate (congrArg Prod.fst ho)
  rw [heq] at ho
  cases ho
  obtain ⟨m₂, hstep', heq'⟩ := exists_of_evaluate (congrArg Prod.fst hv)
  rw [heq'] at hv
  cases hv
  exact evaluate_of_expr (Eval.expr_set_eq_ok.mpr ⟨ref, m₁, m₂, hstep, hstep', rfl⟩)

/-- And there is no other way to set a property. -/
theorem exists_of_evaluate_set (h : (s.evaluate (.set o n v)).1 = .ok result) :
    ∃ ref s₁ s₂, s.evaluate o = (.ok (.inst ref), s₁) ∧ s₁.evaluate v = (.ok result, s₂) := by
  obtain ⟨m', hset, _⟩ := exists_of_evaluate h
  obtain ⟨ref, m₁, m₂, ho, hv, _⟩ := Eval.expr_set_eq_ok.mp hset
  exact ⟨ref, _, _, evaluate_of_expr ho, evaluate_of_expr hv⟩

theorem evaluate_set_of_other {object : Object} (h : s.evaluate o = (.ok object, s₁))
    (hother : ∀ ref, object ≠ .inst ref) :
    s.evaluate (.set o n v) = (.error (.noFields n.line), s₁) := by
  obtain ⟨m₁, hstep, heq⟩ := exists_of_evaluate (congrArg Prod.fst h)
  rw [heq] at h
  cases h
  exact evaluate_of_error (Eval.expr_set_of_other hstep hother)

/-- A property is read along a path to its instance. -/
theorem evaluate_get {path : Expr} (hpath : s.memory.LeadsTo path (.inst ref))
    (hfield : s.memory.heap.field? ref n.lexeme = some result) :
    s.evaluate (.get path n) = (.ok result, s) :=
  evaluate_of_expr (Eval.expr_of_leadsTo (.get hpath hfield))

end Session

/--
**Setting a property writes one field of the instance that was found first, and nothing else.**

A property is set if the expression in front of its name comes to an instance and the value is
evaluated behind that, and then the result is that of the value. The field of this instance has the
result for its contents, the very same object. All variables, the other fields of the instance and
all other instances are as the value has left them. Along any path that leads to the instance,
through whichever variables and fields, the property is read as the result.

If the expression in front comes to anything but an instance, then the error and the session are the
same for all values: no value is evaluated.
-/
theorem set_writes_one_field (s : Session) (o v : Expr) (n : Token) :
    let found := s.evaluate o
    let valued := found.2.evaluate v
    let done := s.evaluate (.set o n v)
    (∀ result, done.1 = .ok result ↔
        (∃ ref, found.1 = .ok (.inst ref)) ∧ valued.1 = .ok result)
      ∧ (∀ ref result, found.1 = .ok (.inst ref) → done.1 = .ok result →
          Memory.Sets ref n.lexeme result valued.2.memory done.2.memory
            ∧ ∀ path name, done.2.memory.LeadsTo path (.inst ref) → name.lexeme = n.lexeme →
              done.2.evaluate (.get path name) = (.ok result, done.2))
      ∧ ∀ object, found.1 = .ok object → (∀ ref, object ≠ .inst ref) →
          done = (.error (.noFields n.line), found.2) := by
  intro found valued done
  refine ⟨fun result => ⟨fun h => ?_, fun h => ?_⟩, fun ref result href h => ?_, fun object h => ?_⟩
  · obtain ⟨ref, s₁, s₂, ho, hv⟩ := Session.exists_of_evaluate_set h
    have hfound : found = (.ok (.inst ref), s₁) := ho
    refine ⟨⟨ref, congrArg Prod.fst hfound⟩, ?_⟩
    show (found.2.evaluate v).1 = _
    rw [hfound]
    exact congrArg Prod.fst hv
  · obtain ⟨⟨ref, href⟩, hvalued⟩ := h
    have hdone := Session.evaluate_set (n := n) (Prod.ext href rfl) (Prod.ext hvalued rfl)
    exact congrArg Prod.fst hdone
  · obtain ⟨ref', s₁, s₂, ho, hv⟩ := Session.exists_of_evaluate_set h
    have hfound : found = (.ok (.inst ref'), s₁) := ho
    rw [hfound] at href
    cases href
    have hvalued : valued = (.ok result, s₂) := by
      show found.2.evaluate v = _
      rw [hfound]
      exact hv
    have hdone : done = _ := Session.evaluate_set ho hv
    have hsets := s₂.memory.sets_setField ref n.lexeme result
    rw [hvalued, hdone]
    exact ⟨hsets, fun path name hpath hname => Session.evaluate_get hpath (hname ▸ hsets.field)⟩
  · exact Session.evaluate_set_of_other (Prod.ext h rfl)

/-- In `p.me = (p = r).back` the value binds `p` to another instance, and comes to the one that `p`
was bound to. This is also bound to `q`, and has itself for a field then. -/
theorem set_writes_one_field_circle :
    let word (name : String) : Token := ⟨.identifier, name, none, 1⟩
    let path (root : String) (fields : List String) : Expr :=
      fields.foldl (fun e field => .get e (word field)) (.var (word root))
    let first := Session.empty.makeInstance ⟨"Point", []⟩
    let second := first.2.makeInstance ⟨"Point", [("back", first.1)]⟩
    let s := ((second.2.define "p" first.1).define "q" first.1).define "r" second.1
    let v : Expr := .get (.assign (word "p") ⟨.equal, "=", none, 1⟩ (path "r" [])) (word "back")
    let done := s.evaluate (.set (path "p" []) (word "me") v)
    first.1 = .inst 0 ∧ second.1 = .inst 1
      ∧ (s.evaluate (path "p" [])).1 = .ok (.inst 0) ∧ done.1 = .ok (.inst 0)
      ∧ done.2.memory.globals.find? "p" = some (.inst 1)
      ∧ done.2.evaluate (path "q" ["me", "me", "me"]) = (.ok (.inst 0), done.2)
      ∧ done.2.evaluate (path "p" ["back", "me"]) = (.ok (.inst 0), done.2)
      ∧ s.evaluate (.set (.literal .nil) (word "me") v) = (.error (.noFields 1), s) := by
  intro word path first second s v done
  obtain ⟨_, hsets, _⟩ := set_writes_one_field s (path "p" []) v (word "me")
  obtain ⟨hmemory, hread⟩ := hsets 0 (.inst 0) rfl rfl
  obtain ⟨_, _, hother⟩ := set_writes_one_field s (.literal .nil) v (word "me")
  have hq : done.2.memory.LeadsTo (path "q" []) (.inst 0) := .var rfl
  have hback : done.2.memory.LeadsTo (path "p" ["back"]) (.inst 0) := .get (.var rfl) rfl
  have hme : done.2.memory.LeadsTo (path "q" ["me", "me"]) (.inst 0) :=
    .get (.get hq hmemory.field) hmemory.field
  exact ⟨rfl, rfl, rfl, rfl, rfl, hread _ _ hme rfl, hread _ _ hback rfl, hother .nil rfl nofun⟩

end Lox
