import Lox.Proofs.CallOrder
import Lox.Proofs.EvalSteps

/-!
# What an observed evaluation keeps

An evaluation keeps an invariant of its memory and of what has happened so far if every step keeps
it that a single node makes. The objects are part of this: what is read from the memory, or given by
a function of the host, is written into the memory or given to a function again. So the steps may
count on a property of the objects they are given, and have to give such objects.

`Observed.Kept` is what has to be known of the single steps, and `Kept.expr` is the induction, made
once for all invariants. One of them is that of the moments: a function that has been run was run at
a moment that is over.
-/

namespace Lox

/-! ## Values that operators make -/

namespace Eval

variable {operator : Token} {left right object : Object}

theorem add_eq_value (h : add operator left right = .ok object) : ∃ v, object = .value v := by
  unfold add at h
  split at h <;> cases h
  · exact ⟨_, rfl⟩
  · exact ⟨_, rfl⟩

theorem onNumbers_eq_value {operation : Float → Float → Object}
    (hoperation : ∀ x y, ∃ v, operation x y = .value v)
    (h : onNumbers operator left right operation = .ok object) : ∃ v, object = .value v := by
  unfold onNumbers at h
  split at h <;> cases h
  exact hoperation _ _

/-- What an operator makes of two objects is a value. -/
theorem binary_eq_value (h : binary operator left right = .ok object) :
    ∃ v, object = .value v := by
  unfold binary at h
  split at h
  case h_1 => exact add_eq_value h
  case h_9 => cases h; exact ⟨_, rfl⟩
  case h_10 => cases h; exact ⟨_, rfl⟩
  case h_11 => cases h
  all_goals exact onNumbers_eq_value (fun _ _ => ⟨_, rfl⟩) h

/-- So is what an operator makes of one. -/
theorem unary_eq_value (h : unary operator right = .ok object) : ∃ v, object = .value v := by
  unfold unary at h
  split at h
  · split at h <;> cases h
    exact ⟨_, rfl⟩
  · cases h
    exact ⟨_, rfl⟩
  · cases h

end Eval

namespace Observed

/-! ## Invariants -/

/-- An invariant of the memory and the events, and a property of objects, that all steps keep which
one of these nodes makes by itself. -/
structure Kept (host : Host) (nodes : List Expr) (I : Memory × List Event → Prop)
    (Q : Object → Prop) : Prop where
  begins : ∀ e s, I s → I (s.1, s.2 ++ [.begins e s.1])
  value : ∀ v, Q (.value v)
  readVariable : ∀ {name}, .var name ∈ nodes →
    Step.Ensures I Q (access some .read name (Eval.readVariable name))
  assignVariable : ∀ {target operator value}, .assign target operator value ∈ nodes →
    ∀ object, Q object →
      Step.Ensures I (fun _ => True) (access some .write target (Eval.assignVariable target object))
  run : ∀ f objects, Q (.function f) → (∀ object ∈ objects, Q object) →
    Step.Ensures I Q (noted some (.runs f objects) (plain (Eval.run host f objects)))
  readField : ∀ ref name, Step.Ensures I Q (plain (Eval.getProperty (.inst ref) name))
  setField : ∀ ref name contents, Q contents →
    Step.Ensures I (fun _ => True)
      (plain (modify fun m => { m with heap := m.heap.setField ref name contents }))

/-- An operation on objects leaves everything as it is. -/
theorem ofExcept_ensures {α : Type} {I : Memory × List Event → Prop} {R : α → Prop}
    {result : Except RuntimeError α} (h : ∀ a, result = .ok a → R a) :
    Step.Ensures I R (plain (MonadExcept.ofExcept result)) := by
  cases result with
  | ok a => exact .pure (h a rfl)
  | error error => exact .throw error

/-- A step in which nothing happens keeps the invariant if its memory does, with the same events. -/
theorem plain_ensures {α : Type} {I : Memory × List Event → Prop} {R : α → Prop} {step : Eval α}
    (h : ∀ m events, I (m, events) →
      I (Step.after (step m), events) ∧ ∀ a m', step m = .ok a m' → R a) :
    Step.Ensures I R (plain step) := by
  intro s hs
  obtain ⟨hafter, hgives⟩ := h s.1 s.2 hs
  unfold plain
  cases hstep : step s.1 with
  | ok a m =>
      rw [hstep] at hafter
      refine ⟨hafter, fun a' s' hok => ?_⟩
      cases hok
      exact hgives a m hstep
  | error error m =>
      rw [hstep] at hafter
      exact ⟨hafter, nofun⟩

namespace Kept

variable {host : Host} {nodes : List Expr} {I : Memory × List Event → Prop} {Q : Object → Prop}

theorem noted_begins (h : Kept host nodes I Q) {e : Expr} {observed : Observed Event Object}
    (hobserved : Step.Ensures I Q observed) :
    Step.Ensures I Q (noted some (.begins e) observed) :=
  fun s hs => hobserved _ (h.begins e s hs)

theorem call (h : Kept host nodes I Q) (line : Nat) {callee : Object} {objects : List Object}
    (hcallee : Q callee) (hobjects : ∀ object ∈ objects, Q object) :
    Step.Ensures I Q (Observed.call some host line callee objects) := by
  rcases function_or_rejected line callee objects with ⟨f, rfl, harity⟩ | ⟨error, hrejected⟩
  · rw [call_function harity]
    exact h.run f objects hcallee hobjects
  · rw [call_of_rejected hrejected]
    exact .throw error

theorem getProperty (h : Kept host nodes I Q) (object : Object) (name : Token) :
    Step.Ensures I Q (plain (Eval.getProperty object name)) := by
  cases object with
  | inst ref => exact h.readField ref name
  | _ => exact .throw _

mutual

/-- **An invariant is kept by every observed evaluation** of an expression that has no other nodes,
by induction on the expression. -/
theorem expr (h : Kept host nodes I Q) :
    ∀ {e : Expr}, e.nodes ⊆ nodes → Step.Ensures I Q (Observed.expr some host e)
  | .assign target operator value, hnodes => by
      rw [Expr.nodes, List.cons_subset, List.cons_subset] at hnodes
      obtain ⟨hself, _, hvalue⟩ := hnodes
      rw [Observed.expr]
      refine h.noted_begins (.bind (h.expr hvalue) fun object hobject => ?_)
      exact .bind (h.assignVariable hself object hobject) fun _ _ => .pure hobject
  | .binary left operator right, hnodes => by
      rw [Expr.nodes, List.cons_subset, List.append_subset] at hnodes
      rw [Observed.expr]
      refine h.noted_begins (.bind (h.expr hnodes.2.1) fun first _ => ?_)
      refine .bind (h.expr hnodes.2.2) fun second _ => ofExcept_ensures fun object hobject => ?_
      obtain ⟨v, rfl⟩ := Eval.binary_eq_value hobject
      exact h.value v
  | .call callee arguments, hnodes => by
      rw [Expr.nodes, List.cons_subset, List.append_subset] at hnodes
      rw [Observed.expr]
      refine h.noted_begins (.bind (h.expr hnodes.2.1) fun function hfunction => ?_)
      exact .bind (h.exprs hnodes.2.2) fun objects hobjects => h.call _ hfunction hobjects
  | .get object name, hnodes => by
      rw [Expr.nodes, List.cons_subset] at hnodes
      rw [Observed.expr]
      exact h.noted_begins (.bind (h.expr hnodes.2) fun first _ => h.getProperty first name)
  | .grouping inner, hnodes => by
      rw [Expr.nodes, List.cons_subset] at hnodes
      rw [Observed.expr]
      exact h.noted_begins (h.expr hnodes.2)
  | .literal value, _ => by
      rw [Observed.expr]
      exact h.noted_begins (.pure (h.value value))
  | .logical left operator right, hnodes => by
      rw [Expr.nodes, List.cons_subset, List.append_subset] at hnodes
      rw [Observed.expr]
      refine h.noted_begins (.bind (h.expr hnodes.2.1) fun first hfirst => ?_)
      have hsettles : Step.Ensures I (fun _ => True)
          (plain (MonadExcept.ofExcept (Eval.settles operator first))) :=
        ofExcept_ensures fun _ _ => trivial
      refine .bind hsettles fun settled _ => ?_
      cases settled with
      | true => exact .pure hfirst
      | false => exact h.expr hnodes.2.2
  | .set object name value, hnodes => by
      rw [Expr.nodes, List.cons_subset, List.append_subset] at hnodes
      rw [Observed.expr]
      refine h.noted_begins (.bind (h.expr hnodes.2.1) fun first _ => ?_)
      cases first with
      | inst ref =>
          refine .bind (h.expr hnodes.2.2) fun contents hcontents => ?_
          exact .bind (h.setField ref name.lexeme contents hcontents) fun _ _ => .pure hcontents
      | _ => exact .throw _
  | .unary operator right, hnodes => by
      rw [Expr.nodes, List.cons_subset] at hnodes
      rw [Observed.expr]
      refine h.noted_begins (.bind (h.expr hnodes.2) fun operand _ => ?_)
      refine ofExcept_ensures fun object hobject => ?_
      obtain ⟨v, rfl⟩ := Eval.unary_eq_value hobject
      exact h.value v
  | .var name, hnodes => by
      rw [Observed.expr]
      exact h.noted_begins (h.readVariable (hnodes (List.mem_singleton.mpr rfl)))

theorem exprs (h : Kept host nodes I Q) :
    ∀ {es : List Expr}, Expr.nodesOfList es ⊆ nodes →
      Step.Ensures I (fun objects => ∀ object ∈ objects, Q object) (Observed.exprs some host es)
  | [], _ => .pure nofun
  | e :: es, hnodes => by
      rw [Expr.nodesOfList, List.append_subset] at hnodes
      rw [Observed.exprs]
      refine .bind (h.expr hnodes.1) fun object hobject => ?_
      refine .bind (h.exprs hnodes.2) fun objects hobjects => .pure fun other hother => ?_
      rcases List.mem_cons.mp hother with rfl | hother
      · exact hobject
      · exact hobjects other hother

end

/-- An invariant holds of the memory that an evaluation leaves and of its log, if it holds of the
memory at first. -/
theorem log {e : Expr} (h : Kept host e.nodes I Q) {m : Memory} (hm : I (m, [])) :
    I (Step.after (Eval.expr host e m), Observed.log host e m) := by
  have hafter := (h.expr (List.Subset.refl _) (m, []) hm).1
  rwa [(log_record host host e m).1.erases [], after_noting] at hafter

end Kept

/-! ## Moments -/

/-- The functions that have been run were run at moments that are over. -/
def Past (s : Memory × List Event) : Prop :=
  ∀ f objects m, .runs f objects m ∈ s.2 → m.moment < s.1.moment

namespace Past

variable {s : Memory × List Event}

/-- If no function is run, nothing is added to the past. -/
theorem add (h : Past s) {event : Event} (hevent : ∀ f objects m, event ≠ .runs f objects m) :
    Past (s.1, s.2 ++ [event]) := by
  intro f objects m hruns
  rcases List.mem_append.mp hruns with hruns | hruns
  · exact h f objects m hruns
  · exact absurd (List.mem_singleton.mp hruns).symm (hevent f objects m)

/-- A step that does not go back in time. -/
theorem plain {α : Type} {step : Eval α} (hstep : ∀ m, m.moment ≤ (Step.after (step m)).moment) :
    Step.Ensures Past (fun _ => True) (Observed.plain step) := by
  refine plain_ensures fun m events hpast => ⟨fun f objects m' hruns => ?_, fun _ _ _ => trivial⟩
  exact Nat.lt_of_lt_of_le (hpast f objects m' hruns) (hstep m)

theorem access {α : Type} {access : Access} {name : Token} {step : Eval α}
    (hstep : ∀ m, m.moment ≤ (Step.after (step m)).moment) :
    Step.Ensures Past (fun _ => True) (Observed.access some access name step) :=
  fun _ hs => plain hstep _ (hs.add nofun)

end Past

end Observed

namespace Eval

theorem readVariable_moment (name : Token) (m : Memory) :
    (Step.after (readVariable name m)).moment = m.moment := by
  unfold readVariable
  cases m.globals.get name <;> rfl

theorem assignVariable_moment (name : Token) (object : Object) (m : Memory) :
    (Step.after (assignVariable name object m)).moment = m.moment := by
  unfold assignVariable
  cases m.globals.assign name object <;> rfl

theorem run_moment (host : Host) (f : NativeFunction) (arguments : List Object) (m : Memory) :
    (Step.after (run host f arguments m)).moment = m.moment + 1 := by
  unfold run
  cases host.behaviour m.moment f.number arguments m.heap <;> rfl

theorem readField_moment (ref : Nat) (name : Token) (m : Memory) :
    (Step.after (getProperty (.inst ref) name m)).moment = m.moment := by
  cases hfield : m.heap.field? ref name.lexeme with
  | some contents => rw [getProperty_of_field hfield]; rfl
  | none => rw [getProperty_of_no_field hfield]; rfl

end Eval

namespace Observed

theorem past_kept (host : Host) (nodes : List Expr) : Kept host nodes Past fun _ => True where
  begins := fun e s hs => hs.add nofun
  value := fun _ => trivial
  readVariable := fun _ => Past.access fun m =>
    Nat.le_of_eq (Eval.readVariable_moment _ m).symm
  assignVariable := fun _ object _ => Past.access fun m =>
    Nat.le_of_eq (Eval.assignVariable_moment _ object m).symm
  run := by
    intro f objects _ _ s hs
    refine ⟨?_, fun _ _ _ => trivial⟩
    show Past (Step.after (noting (s.2 ++ [.runs f objects s.1]) (Eval.run host f objects s.1)))
    rw [after_noting]
    -- the moment of the function is over when it has been run
    intro g objects' m hruns
    rw [Eval.run_moment]
    rcases List.mem_append.mp hruns with hruns | hruns
    · exact Nat.lt_succ_of_lt (hs g objects' m hruns)
    · obtain ⟨_, _, rfl⟩ := Event.runs.inj (List.mem_singleton.mp hruns)
      exact Nat.lt_succ_self _
  readField := fun ref name => Past.plain fun m =>
    Nat.le_of_eq (Eval.readField_moment ref name m).symm
  setField := fun _ _ _ _ => Past.plain fun _ => Nat.le_refl _

end Observed

end Lox
