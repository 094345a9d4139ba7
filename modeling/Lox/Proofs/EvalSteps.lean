import Lox.Proofs.Step
import Lox.Eval

/-!
# What holds of every step of an evaluation

Much of what there is to say about an evaluation is a property of its steps: that they write nothing
but this, or go by nothing but that. If such a property is kept when one step follows another, then
it is enough to know it of the steps that single nodes make. `Eval.Closed` is what has to be known,
and `Closed.expr` is the induction, made once for all such properties.
-/

namespace Lox.Eval

/-! ## A property of an instance -/

section

variable {m : Memory} {ref : Nat} {name : Token}

theorem getProperty_of_field {contents : Object}
    (h : m.heap.field? ref name.lexeme = some contents) :
    getProperty (.inst ref) name m = .ok contents m := by
  have hget : (get : Eval Memory) m = .ok m m := rfl
  refine Step.bind_ok hget ?_
  rw [h]
  rfl

theorem getProperty_of_no_field (h : m.heap.field? ref name.lexeme = none) :
    getProperty (.inst ref) name m = .error (.undefinedProperty name.lexeme name.line) m := by
  have hget : (get : Eval Memory) m = .ok m m := rfl
  refine (Step.bind_of_ok hget).trans ?_
  rw [h]
  rfl

end

/-! ## Properties of steps -/

/-- A property of steps that is kept when one step follows another, and that all steps have which
one of these nodes makes by itself. -/
structure Closed (host : Host) (nodes : List Expr) (P : {α : Type} → Eval α → Prop) : Prop where
  pure : ∀ {α : Type} (a : α), P (Pure.pure a)
  bind : ∀ {α β : Type} {step : Eval α} {step' : α → Eval β},
    P step → (∀ a, P (step' a)) → P (step >>= step')
  readVariable : ∀ {name}, .var name ∈ nodes → P (readVariable name)
  assignVariable : ∀ {target operator value}, .assign target operator value ∈ nodes →
    ∀ object, P (assignVariable target object)
  unary : ∀ {operator right}, .unary operator right ∈ nodes →
    ∀ operand, P (MonadExcept.ofExcept (unary operator operand))
  binary : ∀ {left operator right}, .binary left operator right ∈ nodes →
    ∀ first second, P (MonadExcept.ofExcept (binary operator first second))
  settles : ∀ {left operator right}, .logical left operator right ∈ nodes →
    ∀ first, P (MonadExcept.ofExcept (settles operator first))
  call : ∀ {callee arguments}, .call callee arguments ∈ nodes →
    ∀ function objects, P (call host (callee.line?.getD 0) function objects)
  getProperty : ∀ {object name}, .get object name ∈ nodes →
    ∀ first, P (getProperty first name)
  setField : ∀ {object name value}, .set object name value ∈ nodes →
    ∀ ref contents, P (modify fun m => { m with heap := m.heap.setField ref name.lexeme contents })
  noFields : ∀ {object name value}, .set object name value ∈ nodes →
    P (MonadExcept.throw (.noFields name.line) : Eval Object)

namespace Closed

variable {host : Host} {nodes : List Expr} {P : {α : Type} → Eval α → Prop}

mutual

/-- **A closed property holds of the evaluation of every expression** that has no other nodes, by
induction on the expression. -/
theorem expr (h : Closed host nodes P) :
    ∀ {e : Expr}, e.nodes ⊆ nodes → P (Eval.expr host e)
  | .assign target operator value, hnodes => by
      rw [Expr.nodes, List.cons_subset, List.cons_subset] at hnodes
      obtain ⟨hself, _, hvalue⟩ := hnodes
      rw [Eval.expr]
      refine h.bind (h.expr hvalue) fun object => ?_
      exact h.bind (h.assignVariable hself object) fun _ => h.pure object
  | .binary left operator right, hnodes => by
      rw [Expr.nodes, List.cons_subset, List.append_subset] at hnodes
      obtain ⟨hself, hleft, hright⟩ := hnodes
      rw [Eval.expr]
      refine h.bind (h.expr hleft) fun first => ?_
      exact h.bind (h.expr hright) fun second => h.binary hself first second
  | .call callee arguments, hnodes => by
      rw [Expr.nodes, List.cons_subset, List.append_subset] at hnodes
      obtain ⟨hself, hcallee, harguments⟩ := hnodes
      rw [Eval.expr]
      refine h.bind (h.expr hcallee) fun function => ?_
      exact h.bind (h.exprs harguments) fun objects => h.call hself function objects
  | .get object name, hnodes => by
      rw [Expr.nodes, List.cons_subset] at hnodes
      rw [Eval.expr]
      exact h.bind (h.expr hnodes.2) fun first => h.getProperty hnodes.1 first
  | .grouping inner, hnodes => by
      rw [Expr.nodes, List.cons_subset] at hnodes
      rw [Eval.expr]
      exact h.expr hnodes.2
  | .literal value, _ => h.pure _
  | .logical left operator right, hnodes => by
      rw [Expr.nodes, List.cons_subset, List.append_subset] at hnodes
      obtain ⟨hself, hleft, hright⟩ := hnodes
      rw [Eval.expr]
      refine h.bind (h.expr hleft) fun first => ?_
      refine h.bind (h.settles hself first) fun settled => ?_
      cases settled with
      | true => exact h.pure first
      | false => exact h.expr hright
  | .set object name value, hnodes => by
      rw [Expr.nodes, List.cons_subset, List.append_subset] at hnodes
      obtain ⟨hself, hobject, hvalue⟩ := hnodes
      rw [Eval.expr]
      refine h.bind (h.expr hobject) fun first => ?_
      cases first with
      | inst ref =>
          refine h.bind (h.expr hvalue) fun contents => ?_
          exact h.bind (h.setField hself ref contents) fun _ => h.pure contents
      | _ => exact h.noFields hself
  | .unary operator right, hnodes => by
      rw [Expr.nodes, List.cons_subset] at hnodes
      rw [Eval.expr]
      exact h.bind (h.expr hnodes.2) fun operand => h.unary hnodes.1 operand
  | .var name, hnodes => h.readVariable (hnodes (List.mem_singleton.mpr rfl))

theorem exprs (h : Closed host nodes P) :
    ∀ {es : List Expr}, Expr.nodesOfList es ⊆ nodes → P (Eval.exprs host es)
  | [], _ => h.pure _
  | e :: es, hnodes => by
      rw [Expr.nodesOfList, List.append_subset] at hnodes
      rw [Eval.exprs]
      refine h.bind (h.expr hnodes.1) fun object => ?_
      exact h.bind (h.exprs hnodes.2) fun objects => h.pure (object :: objects)

end

/-- A property of all steps that fail need not be looked at where a node fails by itself. -/
theorem of_throw (throw : ∀ {α : Type} (error : RuntimeError), P (MonadExcept.throw error : Eval α))
    (pure : ∀ {α : Type} (a : α), P (Pure.pure a))
    (bind : ∀ {α β : Type} {step : Eval α} {step' : α → Eval β},
      P step → (∀ a, P (step' a)) → P (step >>= step'))
    (readVariable : ∀ {name}, .var name ∈ nodes → P (Eval.readVariable name))
    (assignVariable : ∀ {target operator value}, .assign target operator value ∈ nodes →
      ∀ object, P (Eval.assignVariable target object))
    (run : ∀ f arguments, P (Eval.run host f arguments))
    (readField : ∀ ref name, P (Eval.getProperty (.inst ref) name))
    (setField : ∀ {object name value}, .set object name value ∈ nodes → ∀ ref contents,
      P (modify fun m => { m with heap := m.heap.setField ref name.lexeme contents })) :
    Closed host nodes P := by
  have ofExcept : ∀ {α : Type} (result : Except RuntimeError α),
      P (MonadExcept.ofExcept result : Eval α) := by
    intro α result
    cases result with
    | ok a => exact pure a
    | error error => exact throw error
  refine ⟨pure, bind, readVariable, assignVariable, fun _ _ => ofExcept _, fun _ _ _ => ofExcept _,
    fun _ _ => ofExcept _, fun _ callee objects => ?_, fun _ first => ?_, setField,
    fun _ => throw _⟩
  · unfold Eval.call
    cases callee with
    | function f =>
        dsimp only
        split
        · exact run f objects
        · exact throw _
    | _ => exact throw _
  · cases first with
    | inst ref => exact readField ref _
    | _ => exact throw _

end Closed

end Lox.Eval
