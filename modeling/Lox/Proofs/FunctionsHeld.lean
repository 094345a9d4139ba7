import Lox.Proofs.BoundNames
import Lox.Proofs.ObservedSteps

/-!
# Which functions a memory holds

A call goes by the object that is called, and that object may have come a long way since the host
supplied the function: through variables and fields, as an argument and as the result of other
functions. Which functions can come to be called?

`Only P` says of an object that it is no function but one with the property `P`, and it says so of
everything that objects can be found in. An evaluation copies objects and makes values, so it keeps
what a memory holds, and it runs no other functions. Nothing has to be known of a variable that the
expression does not name. So `names` are the variables that count.
-/

namespace Lox

variable {P : NativeFunction → Prop} {names : String → Prop}

/-! ## What objects can be found in -/

/-- The object is a function with the property, or it is no function. -/
def Object.Only (P : NativeFunction → Prop) (object : Object) : Prop :=
  ∀ f, object = .function f → P f

/-- The variables that count are bound to such objects. -/
def Environment.Only (names : String → Prop) (P : NativeFunction → Prop) (env : Environment) :
    Prop :=
  ∀ name object, names name → env.find? name = some object → object.Only P

def Heap.Only (P : NativeFunction → Prop) (heap : Heap) : Prop :=
  ∀ ref name object, heap.field? ref name = some object → object.Only P

structure Memory.Only (names : String → Prop) (P : NativeFunction → Prop) (m : Memory) : Prop where
  globals : m.globals.Only names P
  heap : m.heap.Only P

/-- From such objects, a function of the host makes no others. -/
def Behaviour.Only (P : NativeFunction → Prop) (behaviour : Behaviour) : Prop :=
  ∀ arguments : List Object, (∀ object ∈ arguments, object.Only P) →
    Step.Ensures (Heap.Only P) (Object.Only P) (behaviour arguments)

def Host.Only (P : NativeFunction → Prop) (host : Host) : Prop :=
  ∀ moment number, (host.behaviour moment number).Only P

theorem Object.only_value (v : Value) : (Object.value v).Only P := nofun

theorem Object.only_inst (ref : Nat) : (Object.inst ref).Only P := nofun

theorem Object.only_function {f : NativeFunction} (h : P f) : (Object.function f).Only P := by
  intro g hg
  cases hg
  exact h

section

variable {object : Object}

theorem Environment.Only.define {env : Environment} (h : env.Only names P) (name : String)
    (hobject : object.Only P) : (env.define name object).Only names P := by
  intro other found hother hfound
  rw [Environment.find?_define] at hfound
  split at hfound
  · cases hfound
    exact hobject
  · exact h other found hother hfound

theorem Heap.Only.setField {heap : Heap} (h : heap.Only P) (ref : Nat) (name : String)
    (hobject : object.Only P) : (heap.setField ref name object).Only P := by
  intro other field found hfound
  -- the field that is set, another one of that instance, or one of another instance
  by_cases hother : other = ref
  · subst hother
    by_cases hfield : field = name
    · rw [hfield, Heap.field?_setField_self] at hfound
      cases hfound
      exact hobject
    · rw [Heap.field?_setField_of_ne heap other object hfield] at hfound
      exact h other field found hfound
  · unfold Heap.field? at hfound
    rw [Heap.read_setField_of_ne heap name object hother] at hfound
    exact h other field found hfound

/-- What is said of a heap holds also with a new instance, if it holds of the fields of that one. -/
theorem Heap.Only.alloc {heap : Heap} (h : heap.Only P) {contents : Instance}
    (hcontents : ∀ name object, contents.fields.get? name = some object → object.Only P) :
    (heap.alloc contents).2.Only P := by
  intro other field found hfound
  unfold Heap.field? Heap.alloc at hfound
  by_cases hother : other = heap.fresh
  · rw [hother, Heap.read_write_self] at hfound
    exact hcontents field found hfound
  · rw [Heap.read_write_of_ne heap contents hother] at hfound
    exact h other field found hfound

end

/-! ## Functions of the host -/

namespace Host

variable {host : Host}

theorem Only.supply (h : host.Only P) {behaviour : (moment : Nat) → Behaviour}
    (hbehaviour : ∀ moment, (behaviour moment).Only P) : (host.supply behaviour).Only P := by
  intro moment number
  show (if number = host.next then behaviour moment else host.behaviour moment number).Only P
  split
  · exact hbehaviour moment
  · exact h moment number

theorem empty_only : empty.Only P := fun _ _ _ _ => .pure (Object.only_value _)

theorem clock_only (c : Clock) (moment : Nat) : (clock c moment).Only P := by
  intro arguments _ heap hheap
  cases hshows : c.shows moment with
  | ok time =>
      rw [clock_of_ok hshows]
      refine ⟨hheap, fun object heap' h => ?_⟩
      cases h
      exact Object.only_value _
  | error problem =>
      rw [clock_of_error hshows]
      exact ⟨hheap, nofun⟩

theorem str_only : str.Only P := by
  intro arguments _ heap hheap
  refine ⟨hheap, fun object heap' h => ?_⟩
  cases h
  exact Object.only_value _

end Host

/-! ## Steps of an evaluation -/

namespace Eval

variable {host : Host}

/-- A step that leaves what a memory holds, and gives an object of that kind. -/
abbrev Ensures (names : String → Prop) (P : NativeFunction → Prop) {α : Type} (Q : α → Prop)
    (step : Eval α) : Prop :=
  Step.Ensures (Memory.Only names P) Q step

theorem readVariable_ensures {name : Token} (hname : names name.lexeme) :
    Ensures names P (Object.Only P) (readVariable name) := by
  intro m hm
  unfold readVariable Environment.get
  cases hfind : m.globals.find? name.lexeme with
  | none => exact ⟨hm, nofun⟩
  | some object =>
      refine ⟨hm, fun a m' h => ?_⟩
      cases h
      exact hm.globals name.lexeme object hname hfind

theorem assignVariable_ensures (name : Token) {object : Object} (hobject : object.Only P) :
    Ensures names P (fun _ => True) (assignVariable name object) := by
  intro m hm
  refine ⟨?_, fun _ _ _ => trivial⟩
  unfold assignVariable Environment.assign
  split
  · next h =>
    split at h <;> cases h
    exact ⟨hm.globals.define name.lexeme hobject, hm.heap⟩
  · exact hm

theorem run_ensures (hhost : host.Only P) (f : NativeFunction) {objects : List Object}
    (hobjects : ∀ object ∈ objects, object.Only P) :
    Ensures names P (Object.Only P) (run host f objects) := by
  intro m hm
  obtain ⟨hafter, hgives⟩ := hhost m.moment f.number objects hobjects m.heap hm.heap
  unfold run
  cases hrun : host.behaviour m.moment f.number objects m.heap with
  | ok object heap =>
      rw [hrun] at hafter
      refine ⟨⟨hm.globals, hafter⟩, fun a m' h => ?_⟩
      cases h
      exact hgives object heap hrun
  | error error heap =>
      rw [hrun] at hafter
      exact ⟨⟨hm.globals, hafter⟩, nofun⟩

theorem readField_ensures (ref : Nat) (name : Token) :
    Ensures names P (Object.Only P) (getProperty (.inst ref) name) := by
  intro m hm
  cases hfield : m.heap.field? ref name.lexeme with
  | some contents =>
      rw [getProperty_of_field hfield]
      refine ⟨hm, fun a m' h => ?_⟩
      cases h
      exact hm.heap ref name.lexeme contents hfield
  | none =>
      rw [getProperty_of_no_field hfield]
      exact ⟨hm, nofun⟩

theorem setField_ensures (ref : Nat) (name : String) {contents : Object}
    (hcontents : contents.Only P) :
    Ensures names P (fun _ => True)
      (modify fun m => { m with heap := m.heap.setField ref name contents }) :=
  fun _ hm => ⟨⟨hm.globals, hm.heap.setField ref name hcontents⟩, fun _ _ _ => trivial⟩

end Eval

/-! ## Evaluations that are observed -/

namespace Observed

/-- The memory holds such functions, and such functions have been run. -/
structure Only (names : String → Prop) (P : NativeFunction → Prop) (s : Memory × List Event) :
    Prop where
  memory : s.1.Only names P
  seen : ∀ f objects m, .runs f objects m ∈ s.2 → P f

variable {α : Type} {s : Memory × List Event}

/-- An event that is no function that is run, or one that may be run. -/
theorem Only.add (h : Only names P s) {event : Event}
    (hevent : ∀ f objects m, event = .runs f objects m → P f) :
    Only names P (s.1, s.2 ++ [event]) := by
  refine ⟨h.memory, fun f objects m hruns => ?_⟩
  rcases List.mem_append.mp hruns with hruns | hruns
  · exact h.seen f objects m hruns
  · exact hevent f objects m (List.mem_singleton.mp hruns).symm

theorem only_plain {Q : α → Prop} {step : Eval α} (h : Eval.Ensures names P Q step) :
    Step.Ensures (Only names P) Q (plain step) := by
  refine plain_ensures fun m events hs => ?_
  obtain ⟨hafter, hgives⟩ := h m hs.memory
  exact ⟨⟨hafter, hs.seen⟩, hgives⟩

theorem only_noted {Q : α → Prop} {event : Memory → Event} {step : Eval α}
    (hevent : ∀ m f objects m', event m = .runs f objects m' → P f)
    (h : Eval.Ensures names P Q step) :
    Step.Ensures (Only names P) Q (noted some event (plain step)) :=
  fun s hs => only_plain h _ (hs.add (hevent s.1))

/-- **No evaluation makes a function that is not there, and none runs one.** -/
theorem only_kept {host : Host} (hhost : host.Only P) {nodes : List Expr}
    (hnames : ∀ name, .var name ∈ nodes → names name.lexeme) :
    Kept host nodes (Only names P) (Object.Only P) where
  begins := fun _ _ hs => hs.add nofun
  value := Object.only_value
  readVariable := fun hnode =>
    only_noted nofun (Eval.readVariable_ensures (hnames _ hnode))
  assignVariable := fun _ _ hobject =>
    only_noted nofun (Eval.assignVariable_ensures _ hobject)
  run := fun f objects hf hobjects => by
    refine only_noted (fun m g objects' m' hruns => ?_) (Eval.run_ensures hhost f hobjects)
    cases hruns
    exact hf f rfl
  readField := fun ref name => only_plain (Eval.readField_ensures ref name)
  setField := fun ref name _ hcontents =>
    only_plain (Eval.setField_ensures ref name hcontents)

/-- Behind an evaluation the memory holds only such functions, and only such functions are run. -/
theorem only_after {host : Host} (hhost : host.Only P) {m : Memory} (hm : m.Only names P)
    {e : Expr} (hnames : ∀ name, .var name ∈ e.nodes → names name.lexeme) :
    Only names P (Step.after (Eval.expr host e m), log host e m) :=
  (only_kept hhost hnames).log ⟨hm, nofun⟩

end Observed

end Lox
