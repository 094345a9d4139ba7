import Lox.Proofs.Frame

/-!
# What an evaluation depends on

Can a variable that a resolver does not report make a difference? Two evaluations of one expression
are compared here, from memories with the same instances in which the reported names are bound to
the same objects. All other names may be bound to anything, or not at all.

`Memory.Agree host names` relates two such memories, and a step that `DependsOn host names` gives
the same in both and leaves memories that still agree. Functions of the host see no variables, but
they may see something else at another moment. So they are to go by their arguments and the
instances, or else both evaluations begin at the same moment.
-/

namespace Lox

/-! ## The names a resolver reports -/

namespace Expr

/-- A resolver that takes any name reports a read or a write of this one. -/
def Reports (e : Expr) (name : String) : Prop :=
  ∃ r ∈ ((Resolver.start .anything).resolve e).2.references, r.name = name

theorem reports_iff {e : Expr} {name : String} :
    e.Reports name ↔ ∃ r ∈ e.references false, r.name = name := by
  unfold Reports
  rw [Resolver.resolve_of_declared fun _ _ => rfl]
  rfl

/-- The name of the variable that a node reads or assigns to by itself. -/
def ownName? : Expr → Option Token
  | assign target _ _ => some target
  | var name => some name
  | _ => none

/-- A node with a name is one of the nodes below an expression without. -/
theorem mem_below {node e : Expr} {name : Token} {later : List Expr}
    (hname : node.ownName? = some name) (he : e.ownName? = none) (h : node ∈ e :: later) :
    node ∈ later := by
  refine List.mem_of_ne_of_mem ?_ h
  rintro rfl
  cases he.symm.trans hname

mutual

/-- What a node of an expression reads or assigns to is the name of one of its references. -/
theorem mem_references_of_mem_nodes {node : Expr} {name : Token}
    (hname : node.ownName? = some name) :
    ∀ {c : Bool} {e : Expr}, node ∈ e.nodes →
      name.lexeme ∈ (e.references c).map Reference.name
  | _, assign _ _ _, h => by
      rw [references, List.map_append]
      -- the node itself and its target both have the name of the reference at the end
      rcases List.mem_cons.mp h with rfl | h
      · cases hname
        exact List.mem_append_right _ (List.mem_singleton.mpr rfl)
      · rcases List.mem_cons.mp h with rfl | h
        · cases hname
          exact List.mem_append_right _ (List.mem_singleton.mpr rfl)
        · exact List.mem_append_left _ (mem_references_of_mem_nodes hname h)
  | _, binary _ _ _, h => by
      rw [references, List.map_append]
      have h := List.mem_append.mp (mem_below hname rfl h)
      exact List.mem_append.mpr
        (h.imp (mem_references_of_mem_nodes hname) (mem_references_of_mem_nodes hname))
  | _, call _ _, h => by
      rw [references, List.map_append]
      have h := List.mem_append.mp (mem_below hname rfl h)
      exact List.mem_append.mpr
        (h.imp (mem_references_of_mem_nodes hname) (mem_referencesOfList_of_mem_nodes hname))
  | _, get object _, h =>
      mem_references_of_mem_nodes (e := object) hname (mem_below hname rfl h)
  | _, grouping inner, h =>
      mem_references_of_mem_nodes (e := inner) hname (mem_below hname rfl h)
  | _, literal _, h => by
      cases List.mem_singleton.mp h
      cases hname
  | _, logical _ _ _, h => by
      rw [references, List.map_append]
      have h := List.mem_append.mp (mem_below hname rfl h)
      exact List.mem_append.mpr
        (h.imp (mem_references_of_mem_nodes hname) (mem_references_of_mem_nodes hname))
  | _, set _ _ _, h => by
      rw [references, List.map_append]
      have h := List.mem_append.mp (mem_below hname rfl h)
      exact List.mem_append.mpr
        (h.imp (mem_references_of_mem_nodes hname) (mem_references_of_mem_nodes hname))
  | _, unary _ right, h =>
      mem_references_of_mem_nodes (e := right) hname (mem_below hname rfl h)
  | _, var _, h => by
      rw [List.mem_singleton.mp h] at hname
      cases hname
      exact List.mem_singleton.mpr rfl

theorem mem_referencesOfList_of_mem_nodes {node : Expr} {name : Token}
    (hname : node.ownName? = some name) :
    ∀ {c : Bool} {es : List Expr}, node ∈ nodesOfList es →
      name.lexeme ∈ (referencesOfList c es).map Reference.name
  | _, _ :: _, h => by
      rw [referencesOfList, List.map_append]
      have h := List.mem_append.mp h
      exact List.mem_append.mpr
        (h.imp (mem_references_of_mem_nodes hname) (mem_referencesOfList_of_mem_nodes hname))

end

/-- A variable that is read or assigned to is reported. -/
theorem reports_of_mem_nodes {e node : Expr} {name : Token} (hnode : node ∈ e.nodes)
    (hname : node.ownName? = some name) : e.Reports name.lexeme :=
  reports_iff.mpr (List.mem_map.mp (mem_references_of_mem_nodes hname hnode))

theorem reports_of_assigned {e : Expr} {name : String} (h : Assigned e.nodes name) :
    e.Reports name := by
  obtain ⟨target, operator, value, hnode, rfl⟩ := h
  exact reports_of_mem_nodes hnode rfl

end Expr

/-! ## Functions that go by what they are given -/

/-- What a function of the host does with its arguments and the instances is the same at every
moment. -/
def Host.Steady (host : Host) : Prop :=
  ∀ moment moment', host.behaviour moment = host.behaviour moment'

/-- From these two moments on the functions of the host do the same. -/
def Host.AlikeFrom (host : Host) (moment moment' : Nat) : Prop :=
  ∀ later, host.behaviour (moment + later) = host.behaviour (moment' + later)

namespace Host.AlikeFrom

variable {host : Host} {moment moment' : Nat}

theorem of_steady_or_eq (h : host.Steady ∨ moment = moment') : host.AlikeFrom moment moment' := by
  rcases h with hsteady | rfl
  · exact fun _ => hsteady _ _
  · exact fun _ => rfl

theorem next (h : host.AlikeFrom moment moment') : host.AlikeFrom (moment + 1) (moment' + 1) := by
  intro later
  rw [Nat.add_assoc, Nat.add_assoc]
  exact h (1 + later)

end Host.AlikeFrom

/-! ## Memories that agree -/

/-- The same instances, the same objects bound to some names, and the same that the functions of the
host do from now on. -/
structure Memory.Agree (host : Host) (names : String → Prop) (m m' : Memory) : Prop where
  heap : m.heap = m'.heap
  find? : ∀ name, names name → m.globals.find? name = m'.globals.find? name
  functions : host.AlikeFrom m.moment m'.moment

variable {host : Host} {names : String → Prop}

/-- A name that is read in both gives the same, or is not bound in either. -/
theorem Memory.Agree.get_eq {m m' : Memory} (h : m.Agree host names m') {name : Token}
    (hname : names name.lexeme) : m.globals.get name = m'.globals.get name := by
  unfold Environment.get
  rw [h.find? name.lexeme hname]

namespace Environment

variable {env env' : Environment} {name : Token} {object : Object}

/-- Whether an assignment succeeds, and its error if it does not, is a matter of its own name. -/
theorem assign_eq_error (h : env.find? name.lexeme = env'.find? name.lexeme)
    {error : RuntimeError} (hassign : env.assign name object = .error error) :
    env'.assign name object = .error error := by
  obtain ⟨hname, rfl⟩ := not_contains_of_assign hassign
  have hname' : env'.contains name.lexeme = false := by
    rw [← hname]
    exact congrArg Option.isSome h.symm
  unfold assign
  rw [if_neg (Bool.eq_false_iff.mp hname')]

theorem find?_of_assign (hassign : env.assign name object = .ok env') (other : String) :
    env'.find? other = if other = name.lexeme then some object else env.find? other := by
  unfold assign at hassign
  split at hassign <;> cases hassign
  exact Bindings.get?_put env.bindings name.lexeme other object

end Environment

/-! ## Steps of an evaluation -/

/-- From memories that agree, a step gives the same object or error, and memories that agree. -/
def DependsOn {α : Type} (host : Host) (names : String → Prop) (step : Eval α) : Prop :=
  ∀ m m', m.Agree host names m' → Step.outcome (step m) = Step.outcome (step m')
    ∧ (Step.after (step m)).Agree host names (Step.after (step m'))

namespace DependsOn

variable {α β : Type} {step : Eval α}

theorem pure (a : α) : DependsOn host names (Pure.pure a) := fun _ _ h => ⟨rfl, h⟩

theorem throw (error : RuntimeError) : DependsOn host names (MonadExcept.throw error : Eval α) :=
  fun _ _ h => ⟨rfl, h⟩

/-- The second step is made in both memories or in neither, and with the same object. -/
theorem bind {step' : α → Eval β} (h : DependsOn host names step)
    (h' : ∀ a, DependsOn host names (step' a)) : DependsOn host names (step >>= step') := by
  intro m m' hagree
  obtain ⟨hsame, hafter⟩ := h m m' hagree
  cases hm : step m with
  | ok a m₁ =>
      cases hm' : step m' with
      | ok a' m₁' =>
          rw [hm, hm'] at hsame hafter
          cases hsame
          rw [Step.bind_of_ok hm, Step.bind_of_ok hm']
          exact h' a m₁ m₁' hafter
      | error error m₁' => rw [hm, hm'] at hsame; cases hsame
  | error error m₁ =>
      cases hm' : step m' with
      | ok a' m₁' => rw [hm, hm'] at hsame; cases hsame
      | error error' m₁' =>
          rw [hm, hm'] at hsame hafter
          cases hsame
          rw [Step.bind_of_error hm, Step.bind_of_error hm']
          exact ⟨rfl, hafter⟩

theorem readVariable {name : Token} (hname : names name.lexeme) :
    DependsOn host names (Eval.readVariable name) := by
  intro m m' hagree
  unfold Eval.readVariable
  rw [hagree.get_eq hname]
  cases m'.globals.get name with
  | ok object => exact ⟨rfl, hagree⟩
  | error error => exact ⟨rfl, hagree⟩

theorem assignVariable {name : Token} (hname : names name.lexeme) (object : Object) :
    DependsOn host names (Eval.assignVariable name object) := by
  intro m m' hagree
  have hfind := hagree.find? name.lexeme hname
  unfold Eval.assignVariable
  cases hassign : m.globals.assign name object with
  | ok globals =>
      cases hassign' : m'.globals.assign name object with
      | ok globals' =>
          -- both bind the name to the object, and leave all others as they are
          refine ⟨rfl, hagree.heap, fun other hother => ?_, hagree.functions⟩
          show globals.find? other = globals'.find? other
          rw [Environment.find?_of_assign hassign, Environment.find?_of_assign hassign',
            hagree.find? other hother]
      | error error =>
          rw [Environment.assign_eq_error hfind.symm hassign'] at hassign
          cases hassign
  | error error =>
      rw [Environment.assign_eq_error hfind hassign]
      exact ⟨rfl, hagree⟩

/-- A function of the host sees the same arguments and the same instances. -/
theorem run (f : NativeFunction) (arguments : List Object) :
    DependsOn host names (Eval.run host f arguments) := by
  intro m m' hagree
  have hnow : host.behaviour m.moment = host.behaviour m'.moment := hagree.functions 0
  unfold Eval.run
  rw [hagree.heap, hnow]
  cases host.behaviour m'.moment f.number arguments m'.heap with
  | ok object heap => exact ⟨rfl, rfl, hagree.find?, hagree.functions.next⟩
  | error error heap => exact ⟨rfl, rfl, hagree.find?, hagree.functions.next⟩

/-- A field is looked up in either memory, and these have the same instances. -/
theorem readField (ref : Nat) (name : Token) :
    DependsOn host names (Eval.getProperty (.inst ref) name) := by
  intro m m' hagree
  cases hfield : m.heap.field? ref name.lexeme with
  | some contents =>
      rw [Eval.getProperty_of_field hfield, Eval.getProperty_of_field (hagree.heap ▸ hfield)]
      exact ⟨rfl, hagree⟩
  | none =>
      rw [Eval.getProperty_of_no_field hfield, Eval.getProperty_of_no_field (hagree.heap ▸ hfield)]
      exact ⟨rfl, hagree⟩

theorem setField (ref : Nat) (name : String) (contents : Object) :
    DependsOn host names (modify fun m => { m with heap := m.heap.setField ref name contents }) :=
  fun _ _ hagree =>
    ⟨rfl, congrArg (fun heap => heap.setField ref name contents) hagree.heap, hagree.find?,
      hagree.functions⟩

/-- **The steps that nodes make depend only on the variables of these nodes.** -/
theorem closed {nodes : List Expr}
    (h : ∀ node ∈ nodes, ∀ name, node.ownName? = some name → names name.lexeme) :
    Eval.Closed host nodes (DependsOn host names) :=
  .of_throw throw pure bind (fun hnode => readVariable (h _ hnode _ rfl))
    (fun hnode object => assignVariable (h _ hnode _ rfl) object) run readField
    (fun _ ref contents => setField ref _ contents)

end DependsOn

/--
**An evaluation depends on the reported names and on nothing else.**

Two sessions with the same functions and the same instances evaluate an expression alike if every
name a resolver reports for it is bound to the same object in both, or in neither. The functions go
by their arguments and the instances, or if they do not, the sessions are at the same moment. They
come to the same object or the same error and to the same instances, and the reported names are then
bound to the same objects again. All other names stay bound in either session to what they were
bound to.
-/
theorem evaluate_depends_on_reported (host : Host) (m m' : Memory) (e : Expr)
    (hheap : m.heap = m'.heap) (hhost : host.Steady ∨ m.moment = m'.moment)
    (hreported : ∀ name, e.Reports name → m.globals.find? name = m'.globals.find? name) :
    let s : Session := ⟨host, m⟩
    let s' : Session := ⟨host, m'⟩
    (s.evaluate e).1 = (s'.evaluate e).1
      ∧ (s.evaluate e).2.memory.heap = (s'.evaluate e).2.memory.heap
      ∧ (∀ name, e.Reports name → (s.evaluate e).2.memory.globals.find? name
          = (s'.evaluate e).2.memory.globals.find? name)
      ∧ ∀ name, ¬e.Reports name →
          (s.evaluate e).2.memory.globals.find? name = m.globals.find? name
            ∧ (s'.evaluate e).2.memory.globals.find? name = m'.globals.find? name := by
  intro s s'
  have hdepends : DependsOn host e.Reports (Eval.expr host e) :=
    (DependsOn.closed fun _ hnode _ => Expr.reports_of_mem_nodes hnode).expr
      (List.Subset.refl _)
  obtain ⟨hsame, hagree⟩ := hdepends m m' ⟨hheap, hreported, .of_steady_or_eq hhost⟩
  -- a name that is bound to something else has been assigned to, and so it is reported
  have hkept : ∀ (s : Session) (name : String), ¬e.Reports name →
      (s.evaluate e).2.memory.globals.find? name = s.memory.globals.find? name :=
    fun s name hname => Classical.byContradiction fun hne =>
      hname (Expr.reports_of_assigned ((s.evaluate_frame e).globals.find? name hne))
  refine ⟨?_, ?_, ?_, fun name hname => ⟨hkept s name hname, hkept s' name hname⟩⟩
  · rw [s.evaluate_eq, s'.evaluate_eq]
    exact hsame
  · rw [s.evaluate_eq, s'.evaluate_eq]
    exact hagree.heap
  · rw [s.evaluate_eq, s'.evaluate_eq]
    exact hagree.find?

/-- `a = b.x = nil` with `c` bound to a function in one session, and not bound in the other. -/
theorem evaluate_depends_on_reported_field :
    let word (name : String) : Token := ⟨.identifier, name, none, 1⟩
    let equals : Token := ⟨.equal, "=", none, 1⟩
    let e : Expr := .assign (word "a") equals (.set (.var (word "b")) (word "x") (.literal .nil))
    let made := (Session.start (.stopped 0)).makeInstance ⟨"Point", []⟩
    let s := (made.2.define "a" (.boolean true)).define "b" made.1
    let m := (s.define "c" (.function ⟨1, "str", 1⟩)).memory
    let m' := s.memory
    let after (m : Memory) : Memory := ((⟨s.host, m⟩ : Session).evaluate e).2.memory
    (m.heap = m'.heap ∧ m.moment = m'.moment
      ∧ ∀ name, e.Reports name → m.globals.find? name = m'.globals.find? name)
    ∧ (m.globals.find? "c" ≠ m'.globals.find? "c" ∧ ¬e.Reports "c")
    ∧ (after m).heap.field? 0 "x" = some .nil
    ∧ (after m).heap = (after m').heap
    ∧ (after m).globals.find? "a" = (after m').globals.find? "a"
    ∧ (after m).globals.find? "c" = m.globals.find? "c" := by
  intro word equals e made s m m' after
  have hreports : ∀ name, e.Reports name → name = "b" ∨ name = "a" := by
    intro name hname
    obtain ⟨r, hr, rfl⟩ := Expr.reports_iff.mp hname
    rcases List.mem_cons.mp hr with rfl | hr
    · exact Or.inl rfl
    · rw [List.mem_singleton.mp hr]
      exact Or.inr rfl
  have hagree : ∀ name, e.Reports name → m.globals.find? name = m'.globals.find? name := by
    intro name hname
    rcases hreports name hname with rfl | rfl <;> rfl
  have hother : ¬e.Reports "c" := fun hname => absurd (hreports "c" hname) (by decide)
  have hassigned : e.Reports "a" :=
    Expr.reports_of_assigned ⟨_, _, _, List.mem_cons_self .., rfl⟩
  obtain ⟨_, hheap, hnames, hkept⟩ :=
    evaluate_depends_on_reported s.host m m' e rfl (Or.inr rfl) hagree
  exact ⟨⟨rfl, rfl, hagree⟩, ⟨by nofun, hother⟩, rfl, hheap, hnames "a" hassigned,
    (hkept "c" hother).1⟩

end Lox
