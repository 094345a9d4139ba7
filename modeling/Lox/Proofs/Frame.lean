import Lox.Proofs.BoundNames
import Lox.Proofs.EvalSteps

/-!
# What an evaluation leaves alone

Which variables and which fields can be different after an evaluation? A variable only if an
assignment to it stands somewhere in the expression, and a field only if a field of that name is
set somewhere. It does not matter which of these nodes the evaluation comes to, nor where it fails.

`Memory.Frame` says this of two memories, for a list of nodes. Since it is reflexive and transitive,
only the steps that write anything have to be looked at. A function of the host could write what it
likes, so that what is said about instances takes a host that leaves them alone, `Host.Gentle`.
-/

namespace Lox

/-! ## What a list of nodes can change -/

namespace Expr

/-- One of the nodes assigns to the variable. -/
def Assigned (nodes : List Expr) (name : String) : Prop :=
  ∃ target operator value, assign target operator value ∈ nodes ∧ target.lexeme = name

/-- One of the nodes sets a field of this name. -/
def FieldSet (nodes : List Expr) (name : String) : Prop :=
  ∃ object field value, set object field value ∈ nodes ∧ field.lexeme = name

end Expr

open Lox.Expr (Assigned FieldSet)

variable {nodes : List Expr}

/-- The same names are bound as before, and to the same objects unless they are assigned to. -/
structure Environment.Frame (nodes : List Expr) (env env' : Environment) : Prop where
  contains : ∀ name, env'.contains name = env.contains name
  find? : ∀ name, env'.find? name ≠ env.find? name → Assigned nodes name

/-- An instance has kept its name and its fields, and only fields that are set have come in or have
other contents. -/
structure Instance.Frame (nodes : List Expr) (i i' : Instance) : Prop where
  className : i'.className = i.className
  contains : ∀ name, i.fields.contains name = true → i'.fields.contains name = true
  get? : ∀ name, i'.fields.get? name ≠ i.fields.get? name → FieldSet nodes name

/-- All instances that there were are still there. Others may have been made. -/
def Heap.Frame (nodes : List Expr) (h h' : Heap) : Prop :=
  ∀ ref i, h.instances.get? ref = some i →
    ∃ i', h'.instances.get? ref = some i' ∧ i.Frame nodes i'

/-- No function of the host changes an instance that was there before. It may make new ones. -/
def Host.Gentle (host : Host) : Prop :=
  ∀ moment number arguments heap ref i, heap.instances.get? ref = some i →
    (Step.after (host.behaviour moment number arguments heap)).instances.get? ref = some i

/-- What is different in the second memory was written by one of the nodes. -/
structure Memory.Frame (host : Host) (nodes : List Expr) (m m' : Memory) : Prop where
  globals : m.globals.Frame nodes m'.globals
  heap : host.Gentle → m.heap.Frame nodes m'.heap

/-! ## Changes one after the other -/

namespace Environment.Frame

variable {env env' env'' : Environment}

theorem refl : env.Frame nodes env := ⟨fun _ => rfl, fun _ h => absurd rfl h⟩

theorem trans (h : env.Frame nodes env') (h' : env'.Frame nodes env'') :
    env.Frame nodes env'' := by
  refine ⟨fun name => (h'.contains name).trans (h.contains name), fun name hne => ?_⟩
  by_cases hsame : env''.find? name = env'.find? name
  · exact h.find? name (hsame ▸ hne)
  · exact h'.find? name hsame

/-- An assignment changes what its own target is bound to. -/
theorem of_assign {name : Token} {object : Object} (hname : Assigned nodes name.lexeme)
    (h : env.assign name object = .ok env') : env.Frame nodes env' := by
  refine ⟨(Environment.contains_assign h).2, fun other hne => ?_⟩
  unfold Environment.assign at h
  split at h <;> cases h
  by_cases hother : other = name.lexeme
  · rw [hother]
    exact hname
  · exact absurd (Bindings.get?_put_of_ne env.bindings object hother) hne

end Environment.Frame

namespace Instance.Frame

variable {i i' i'' : Instance}

theorem refl : i.Frame nodes i := ⟨rfl, fun _ h => h, fun _ h => absurd rfl h⟩

theorem trans (h : i.Frame nodes i') (h' : i'.Frame nodes i'') : i.Frame nodes i'' := by
  refine ⟨h'.className.trans h.className,
    fun name hname => h'.contains name (h.contains name hname), fun name hne => ?_⟩
  by_cases hsame : i''.fields.get? name = i'.fields.get? name
  · exact h.get? name (hsame ▸ hne)
  · exact h'.get? name hsame

/-- A field that is set is there afterwards, and all others are as before. -/
theorem put {name : String} (hname : FieldSet nodes name) (contents : Object) :
    i.Frame nodes { i with fields := i.fields.put name contents } := by
  refine ⟨rfl, fun other hother => ?_, fun other hne => ?_⟩
  · rw [Bindings.contains_put]
    exact Bool.or_eq_true_iff.mpr (Or.inr hother)
  · by_cases hother : other = name
    · rw [hother]
      exact hname
    · exact absurd (Bindings.get?_put_of_ne i.fields contents hother) hne

end Instance.Frame

namespace Heap.Frame

variable {h h' h'' : Heap}

theorem refl : h.Frame nodes h := fun _ i hi => ⟨i, hi, Instance.Frame.refl⟩

theorem trans (hf : h.Frame nodes h') (hf' : h'.Frame nodes h'') : h.Frame nodes h'' := by
  intro ref i hi
  obtain ⟨i', hi', hframe⟩ := hf ref i hi
  obtain ⟨i'', hi'', hframe'⟩ := hf' ref i' hi'
  exact ⟨i'', hi'', hframe.trans hframe'⟩

/-- Of all the instances there are, only the one whose field is set is touched. -/
theorem setField {name : String} (hname : FieldSet nodes name) (ref : Nat) (contents : Object) :
    h.Frame nodes (h.setField ref name contents) := by
  intro other i hi
  by_cases hother : other = ref
  · subst hother
    refine ⟨_, Bindings.get?_put_self .., ?_⟩
    rw [show h.read other = i from congrArg (Option.getD · _) hi]
    exact Instance.Frame.put hname contents
  · exact ⟨i, (Bindings.get?_put_of_ne _ _ hother).trans hi, Instance.Frame.refl⟩

end Heap.Frame

/-! ## Steps of an evaluation -/

/-- A step that writes only what these nodes write. -/
abbrev Frames {α : Type} (host : Host) (nodes : List Expr) (step : Eval α) : Prop :=
  Step.Leads (Memory.Frame host nodes) step

namespace Frames

variable {α β : Type} {host : Host} {step : Eval α}

/-- A step that leaves the memory as it is. -/
theorem of_eq (h : ∀ m, Step.after (step m) = m) : Frames host nodes step := by
  intro m
  rw [h m]
  exact ⟨Environment.Frame.refl, fun _ => Heap.Frame.refl⟩

theorem pure (a : α) : Frames host nodes (Pure.pure a) := of_eq fun _ => rfl

theorem throw (error : RuntimeError) : Frames host nodes (MonadExcept.throw error : Eval α) :=
  of_eq fun _ => rfl

theorem bind {step' : α → Eval β} (h : Frames host nodes step)
    (h' : ∀ a, Frames host nodes (step' a)) : Frames host nodes (step >>= step') :=
  Step.Leads.bind
    (fun hf hf' => ⟨hf.globals.trans hf'.globals, fun hg => (hf.heap hg).trans (hf'.heap hg)⟩) h h'

theorem readVariable (name : Token) : Frames host nodes (Eval.readVariable name) := by
  refine of_eq fun m => ?_
  unfold Eval.readVariable
  cases m.globals.get name <;> rfl

theorem assignVariable {name : Token} (hname : Assigned nodes name.lexeme) (object : Object) :
    Frames host nodes (Eval.assignVariable name object) := by
  intro m
  unfold Eval.assignVariable
  cases hassign : m.globals.assign name object with
  | ok globals => exact ⟨Environment.Frame.of_assign hname hassign, fun _ => Heap.Frame.refl⟩
  | error error => exact ⟨Environment.Frame.refl, fun _ => Heap.Frame.refl⟩

/-- A function of the host sees no variables, and a gentle one leaves the instances alone. -/
theorem run (f : NativeFunction) (arguments : List Object) :
    Frames host nodes (Eval.run host f arguments) := by
  intro m
  have hgentle : host.Gentle →
      m.heap.Frame nodes (Step.after (host.behaviour m.moment f.number arguments m.heap)) :=
    fun hg ref i hi => ⟨i, hg m.moment f.number arguments m.heap ref i hi, Instance.Frame.refl⟩
  unfold Eval.run
  cases hrun : host.behaviour m.moment f.number arguments m.heap with
  | ok object heap =>
      rw [hrun] at hgentle
      exact ⟨Environment.Frame.refl, hgentle⟩
  | error error heap =>
      rw [hrun] at hgentle
      exact ⟨Environment.Frame.refl, hgentle⟩

theorem readField (ref : Nat) (name : Token) :
    Frames host nodes (Eval.getProperty (.inst ref) name) := by
  refine of_eq fun m => ?_
  cases hfield : m.heap.field? ref name.lexeme with
  | some contents => rw [Eval.getProperty_of_field hfield]; rfl
  | none => rw [Eval.getProperty_of_no_field hfield]; rfl

theorem setField {name : String} (hname : FieldSet nodes name) (ref : Nat) (contents : Object) :
    Frames host nodes (modify fun m => { m with heap := m.heap.setField ref name contents }) :=
  fun _ => ⟨Environment.Frame.refl, fun _ => Heap.Frame.setField hname ref contents⟩

/-- **The steps that nodes make write only what these nodes write.** -/
theorem closed : Eval.Closed host nodes (Frames host nodes) :=
  .of_throw throw pure bind (fun _ => readVariable _)
    (fun hnode object => assignVariable ⟨_, _, _, hnode, rfl⟩ object) run readField
    (fun hnode ref contents => setField ⟨_, _, _, hnode, rfl⟩ ref contents)

end Frames

/-! ## Sessions -/

namespace Session

/-- An evaluation is one step, with the memory of the session as its state. -/
theorem evaluate_eq (s : Session) (e : Expr) :
    s.evaluate e = (Step.outcome (Eval.expr s.host e s.memory),
      { s with memory := Step.after (Eval.expr s.host e s.memory) }) := by
  unfold evaluate
  cases Eval.expr s.host e s.memory <;> rfl

theorem evaluate_frame (s : Session) (e : Expr) :
    s.memory.Frame s.host e.nodes (s.evaluate e).2.memory := by
  rw [evaluate_eq]
  exact Frames.closed.expr (List.Subset.refl _) s.memory

end Session

/--
**An evaluation writes nothing but the targets it names.**

Whether or not it succeeds, the same variables are bound afterwards, and one that is bound to
something else is the target of an assignment in the expression. If the functions of the host leave
instances alone, every instance has kept its name and its fields, and a field that is new or has
other contents has the name of a field that is set in the expression.
-/
theorem evaluate_writes_targets (s : Session) (e : Expr) :
    (∀ name, (s.evaluate e).2.memory.globals.contains name = s.memory.globals.contains name)
    ∧ (∀ name, (s.evaluate e).2.memory.globals.find? name ≠ s.memory.globals.find? name →
        ∃ target operator value,
          Expr.assign target operator value ∈ e.nodes ∧ target.lexeme = name)
    ∧ (s.host.Gentle → ∀ ref i, s.memory.heap.instances.get? ref = some i →
        ∃ i', (s.evaluate e).2.memory.heap.instances.get? ref = some i'
          ∧ i'.className = i.className
          ∧ (∀ name, i.fields.contains name = true → i'.fields.contains name = true)
          ∧ ∀ name, i'.fields.get? name ≠ i.fields.get? name →
            ∃ object field value,
              Expr.set object field value ∈ e.nodes ∧ field.lexeme = name) := by
  have hframe := s.evaluate_frame e
  refine ⟨hframe.globals.contains, hframe.globals.find?, fun hgentle ref i hi => ?_⟩
  obtain ⟨i', hi', hkept⟩ := hframe.heap hgentle ref i hi
  exact ⟨i', hi', hkept.className, hkept.contains, hkept.get?⟩

/-- `-(p.x = a = make())` fails at the sign, when `a` and the field `x` are set already. -/
theorem evaluate_writes_targets_failed :
    let word (name : String) : Token := ⟨.identifier, name, none, 1⟩
    let equals : Token := ⟨.equal, "=", none, 1⟩
    let make : Behaviour := fun _ heap =>
      let (ref, heap) := heap.alloc ⟨"Point", []⟩
      .ok (.inst ref) heap
    let point : Instance := ⟨"Point", [("y", .nil)]⟩
    let made := (Session.empty.defineNative "make" 0 make).makeInstance point
    let s := (made.2.define "p" made.1).define "a" .nil
    let assignment : Expr := .assign (word "a") equals (.call (.var (word "make")) [])
    let e : Expr := .unary ⟨.minus, "-", none, 1⟩ (.set (.var (word "p")) (word "x") assignment)
    s.host.Gentle
      ∧ (s.evaluate e).1 = .error (.operandNotNumber 1)
      ∧ s.memory.heap.instances.get? 0 = some point
      ∧ (∀ name, (s.evaluate e).2.memory.globals.find? name ≠ s.memory.globals.find? name →
          name = "a")
      ∧ ∃ i', (s.evaluate e).2.memory.heap.instances.get? 0 = some i'
        ∧ i'.className = "Point" ∧ i'.fields.contains "y" = true
        ∧ ∀ name, i'.fields.get? name ≠ point.fields.get? name → name = "x" := by
  intro word equals make point made s assignment e
  have hgentle : s.host.Gentle := by
    intro moment number arguments heap ref i hi
    show (Step.after ((if number = 0 then make else fun _ => pure .nil) arguments heap)
      ).instances.get? ref = some i
    split
    · -- the new instance has a reference that none of the others has
      have hne : ref ≠ heap.fresh := by
        rintro rfl
        rw [Heap.get?_fresh] at hi
        cases hi
      exact (Bindings.get?_put_of_ne _ _ hne).trans hi
    · exact hi
  have hwrites := evaluate_writes_targets s e
  refine ⟨hgentle, rfl, rfl, fun name hne => ?_, ?_⟩
  · obtain ⟨target, operator, value, hnode, rfl⟩ := hwrites.2.1 name hne
    obtain ⟨rfl, _⟩ : target = word "a" ∧ operator = equals ∧ _ := by
      simpa [e, assignment, Expr.nodes, Expr.nodesOfList] using hnode
    rfl
  · obtain ⟨i', hi', hclass, hnames, hfields⟩ := hwrites.2.2 hgentle 0 point rfl
    refine ⟨i', hi', hclass, hnames "y" rfl, fun name hne => ?_⟩
    obtain ⟨object, field, value, hnode, rfl⟩ := hfields name hne
    obtain ⟨_, rfl, _⟩ : _ ∧ field = word "x" ∧ _ := by
      simpa [e, assignment, Expr.nodes, Expr.nodesOfList] using hnode
    rfl

end Lox
