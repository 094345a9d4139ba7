import Lox.Proofs.Moved
import Lox.Proofs.References
import Lox.Proofs.EvalSteps
import Lox.Session

/-!
# Runs on other lines

What a resolver reports and what an evaluation comes to do not depend on lines, and the lines of
their errors are those of tokens. There is one exception. The error of a call has the line of the
callee, and a literal has none: then it is line 0. A callee without a line is a literal in
parentheses, or a call of one, and such a call does not even get as far as an object
(`value_of_no_line`). So it is only where the literal itself is called that an error has no line of
the text, and its cause is always the same: what is called is no function.
-/

namespace Lox

variable {L : Nat → Nat → Prop}

/-! ## What a resolver reports -/

/-- The same reference, on a line that `L` relates to its own. -/
structure Reference.Moved (L : Nat → Nat → Prop) (r r' : Reference) : Prop where
  name : r.name = r'.name
  access : r.access = r'.access
  conditional : r.conditional = r'.conditional
  line : L r.line r'.line

structure Undeclared.Moved (L : Nat → Nat → Prop) (error error' : Undeclared) : Prop where
  name : error.name = error'.name
  line : L error.line error'.line

namespace Expr

/-- The reference of one token. -/
theorem reference_moved {t t' : Token} (h : t.Moved L t') (access : Access) (c : Bool) :
    List.Forall₂ (Reference.Moved L) [⟨t.lexeme, t.line, access, c⟩]
      [⟨t'.lexeme, t'.line, access, c⟩] :=
  .cons ⟨h.lexeme, rfl, rfl, h.line⟩ .nil

mutual

/-- **An expression has the same references on any lines**, in the same order. -/
theorem Alike.references_moved :
    ∀ {c : Bool} {e e' : Expr}, e.Moved L e' →
      List.Forall₂ (Reference.Moved L) (e.references c) (e'.references c)
  | c, _, _, .assign ht _ hv => List.rel_append hv.references_moved (reference_moved ht .write c)
  | _, _, _, .binary hl _ hr => List.rel_append hl.references_moved hr.references_moved
  | _, _, _, .call hc has => List.rel_append hc.references_moved has.references_moved
  | _, _, _, .get he _ => he.references_moved
  | _, _, _, .grouping he => he.references_moved
  | _, _, _, .literal _ => .nil
  | _, _, _, .logical hl _ hr => List.rel_append hl.references_moved hr.references_moved
  | _, _, _, .set he _ hv => List.rel_append he.references_moved hv.references_moved
  | _, _, _, .unary _ hr => hr.references_moved
  | c, _, _, .var hn => reference_moved hn .read c

theorem AlikeList.references_moved :
    ∀ {c : Bool} {es es' : List Expr}, AlikeList (Token.Moved L) Eq es es' →
      List.Forall₂ (Reference.Moved L) (referencesOfList c es) (referencesOfList c es')
  | _, _, _, .nil => .nil
  | _, _, _, .cons he hes => List.rel_append he.references_moved hes.references_moved

end

end Expr

/-- What is recorded behind these references is the same, on other lines. -/
def RecordedMoved (L : Nat → Nat → Prop) (before rs rs' : List Reference) : Prop :=
  ∃ recorded recorded', rs = before ++ recorded ∧ rs' = before ++ recorded'
    ∧ List.Forall₂ (Reference.Moved L) recorded recorded'

namespace Resolve

/-- A name is declared or undeclared on any line. -/
theorem add_parallel (scope : Scope) (before : List Reference) {r r' : Reference}
    (h : r.Moved L r') :
    Step.Parallel (RecordedMoved L before) (Undeclared.Moved L) (fun _ _ => True)
      (add scope r) (add scope r') := by
  unfold add
  rw [h.name]
  split
  · refine Step.Parallel.change fun rs rs' hrs => ?_
    obtain ⟨recorded, recorded', rfl, rfl, hrecorded⟩ := hrs
    refine ⟨recorded ++ [r], recorded' ++ [r'], ?_, ?_, List.rel_append hrecorded (.cons h .nil)⟩
    · rw [List.append_assoc]
    · rw [List.append_assoc]
  · exact .throw ⟨rfl, h.line⟩

theorem forM_add_parallel (scope : Scope) (before : List Reference) {rs rs' : List Reference}
    (h : List.Forall₂ (Reference.Moved L) rs rs') :
    Step.Parallel (RecordedMoved L before) (Undeclared.Moved L) (fun _ _ => True)
      (forM rs (add scope)) (forM rs' (add scope)) := by
  induction h with
  | nil => exact .pure trivial
  | cons hr _ ih =>
    rw [List.forM_cons, List.forM_cons]
    exact (add_parallel scope before hr).bind fun _ _ _ _ => ih

end Resolve

/-- **A resolver goes the same way on any lines.** It adds the same references, and finds the same
name undeclared if it finds one. -/
theorem Resolver.resolve_moved (r : Resolver) {e e' : Expr} (h : e.Moved L e') :
    Step.SameOutcome (Undeclared.Moved L) Eq (r.resolve e).1 (r.resolve e').1
      ∧ RecordedMoved L r.references (r.resolve e).2.references (r.resolve e').2.references := by
  have hparallel := Resolve.forM_add_parallel r.scope r.references (h.references_moved (c := false))
  have hstart : RecordedMoved L r.references r.references r.references :=
    ⟨[], [], (List.append_nil _).symm, (List.append_nil _).symm, .nil⟩
  have hends := hparallel _ _ hstart
  rw [← Resolve.expr_eq_forM, ← Resolve.expr_eq_forM] at hends
  unfold resolve
  generalize Resolve.expr r.scope false e r.references = result at hends ⊢
  generalize Resolve.expr r.scope false e' r.references = result' at hends ⊢
  cases hends with
  | ok _ hrecorded => exact ⟨.ok rfl, hrecorded⟩
  | error he hrecorded => exact ⟨.error he, hrecorded⟩

/-! ## Expressions without a line -/

namespace Expr

/-- The value of a literal in any number of parentheses. -/
def constant? : Expr → Option Value
  | literal value => some value
  | grouping inner => inner.constant?
  | _ => none

theorem line?_moved : ∀ {e e' : Expr}, e.Moved L e' → Option.Rel L e.line? e'.line?
  | _, _, .assign ht _ _ => .some ht.line
  | _, _, .binary _ ho _ => .some ho.line
  | _, _, .call hc _ => by
      rw [line?, line?]
      exact line?_moved hc
  | _, _, .get _ hn => .some hn.line
  | _, _, .grouping he => by
      rw [line?, line?]
      exact line?_moved he
  | _, _, .literal _ => .none
  | _, _, .logical _ ho _ => .some ho.line
  | _, _, .set _ hn _ => .some hn.line
  | _, _, .unary ho _ => .some ho.line
  | _, _, .var hn => .some hn.line

end Expr

namespace Eval

variable {host : Host}

/-- A literal in parentheses has its value, in any memory. -/
theorem expr_of_constant? {e : Expr} {v : Value} (h : e.constant? = some v) (m : Memory) :
    expr host e m = .ok (.value v) m := by
  fun_induction Expr.constant? e with
  | case1 value =>
    cases h
    rfl
  | case2 inner ih =>
    rw [expr]
    exact ih h
  | case3 => cases h

/-- A value cannot be called. -/
theorem call_value (line : Nat) (v : Value) (objects : List Object) :
    call host line (.value v) objects = MonadExcept.throw (.notCallable v.typeName line) := rfl

/-- **What has no line and comes to an object is a literal in parentheses.** A call that has no line
is one of a literal, and fails. -/
theorem value_of_no_line {e : Expr} (hline : e.line? = none) :
    ∀ {object : Object}, Step.Gives (expr host e) object →
      ∃ v, e.constant? = some v ∧ object = .value v := by
  fun_induction Expr.line? e with
  | case3 callee arguments ih =>
    rintro object ⟨m, m', h⟩
    rw [expr] at h
    obtain ⟨function, m₁, hcallee, h⟩ := Step.bind_eq_ok.mp h
    obtain ⟨objects, m₂, _, h⟩ := Step.bind_eq_ok.mp h
    obtain ⟨v, _, rfl⟩ := ih hline ⟨m, m₁, hcallee⟩
    rw [call_value] at h
    cases h
  | case5 inner ih =>
    intro object h
    rw [expr] at h
    exact ih hline h
  | case6 v =>
    rintro object ⟨m, m', h⟩
    cases h
    exact ⟨v, rfl, rfl⟩
  | _ => cases hline

end Eval

/-! ## What an evaluation comes to -/

/-- The same cause, on a line that `L` relates to its own. -/
inductive RuntimeError.Moved (L : Nat → Nat → Prop) : RuntimeError → RuntimeError → Prop where
  | undefinedVariable {name : String} {line line' : Nat} :
      L line line' → Moved L (undefinedVariable name line) (undefinedVariable name line')
  | operandNotNumber {line line' : Nat} :
      L line line' → Moved L (operandNotNumber line) (operandNotNumber line')
  | operandsNotNumbers {line line' : Nat} :
      L line line' → Moved L (operandsNotNumbers line) (operandsNotNumbers line')
  | operandsNotAddable {line line' : Nat} :
      L line line' → Moved L (operandsNotAddable line) (operandsNotAddable line')
  | notCallable {typeName : String} {line line' : Nat} :
      L line line' → Moved L (notCallable typeName line) (notCallable typeName line')
  | arityMismatch {expected given line line' : Nat} :
      L line line' →
        Moved L (arityMismatch expected given line) (arityMismatch expected given line')
  | noProperties {line line' : Nat} :
      L line line' → Moved L (noProperties line) (noProperties line')
  | noFields {line line' : Nat} : L line line' → Moved L (noFields line) (noFields line')
  | undefinedProperty {name : String} {line line' : Nat} :
      L line line' → Moved L (undefinedProperty name line) (undefinedProperty name line')
  | unknownOperator {lexeme : String} {line line' : Nat} :
      L line line' → Moved L (unknownOperator lexeme line) (unknownOperator lexeme line')
  | native {text : String} : Moved L (native text) (native text)

/-- The errors of the host are on lines that `L` relates to themselves, or on none. -/
def Host.Unmoved (L : Nat → Nat → Prop) (host : Host) : Prop :=
  ∀ moment number arguments heap error heap',
    host.behaviour moment number arguments heap = .error error heap' → error.Moved L error

/-- The error of a call of a literal, which stands among these nodes. -/
def CallsLiteral (nodes : List Expr) (error : RuntimeError) : Prop :=
  ∃ callee arguments v, .call callee arguments ∈ nodes ∧ callee.constant? = some v
    ∧ error = .notCallable v.typeName 0

/-- The same error on another line, or the error of a call of a literal. -/
def RaisedMoved (L : Nat → Nat → Prop) (nodes : List Expr) (error error' : RuntimeError) : Prop :=
  error.Moved L error' ∨ (error = error' ∧ CallsLiteral nodes error)

namespace Eval

/-- From one memory, two steps come to the same but for the lines of errors. -/
abbrev Parallel {α : Type} (L : Nat → Nat → Prop) (nodes : List Expr) (x x' : Eval α) : Prop :=
  Step.Parallel Eq (RaisedMoved L nodes) Eq x x'

variable {α : Type} {nodes : List Expr} {host : Host} {t t' : Token}

theorem same_parallel (x : Eval α) (h : ∀ m error m', x m = .error error m' → error.Moved L error) :
    Parallel L nodes x x := by
  rintro m _ rfl
  cases hx : x m with
  | ok a m' => exact .ok rfl rfl
  | error error m' => exact .error (Or.inl (h m error m' hx)) rfl

theorem throw_parallel {error error' : RuntimeError} (h : error.Moved L error') :
    Parallel L nodes (MonadExcept.throw error : Eval α) (MonadExcept.throw error') :=
  .throw (Or.inl h)

theorem ofExcept_parallel {result result' : Except RuntimeError α}
    (h : Step.SameOutcome (RuntimeError.Moved L) Eq result result') :
    Parallel L nodes (MonadExcept.ofExcept result : Eval α) (MonadExcept.ofExcept result') := by
  cases h with
  | ok ha => exact .pure ha
  | error he => exact throw_parallel he

theorem readVariable_parallel (h : t.Moved L t') :
    Parallel L nodes (readVariable t) (readVariable t') := by
  rintro m _ rfl
  unfold readVariable Environment.get
  rw [h.lexeme]
  cases m.globals.find? t'.lexeme with
  | some object => exact .ok rfl rfl
  | none => exact .error (Or.inl (.undefinedVariable h.line)) rfl

theorem assignVariable_parallel (h : t.Moved L t') (object : Object) :
    Parallel L nodes (assignVariable t object) (assignVariable t' object) := by
  rintro m _ rfl
  unfold assignVariable Environment.assign
  rw [h.lexeme]
  cases m.globals.contains t'.lexeme with
  | true => exact .ok rfl rfl
  | false => exact .error (Or.inl (.undefinedVariable h.line)) rfl

theorem getProperty_parallel (h : t.Moved L t') (object : Object) :
    Parallel L nodes (getProperty object t) (getProperty object t') := by
  cases object with
  | inst ref =>
      rintro m _ rfl
      cases hfield : m.heap.field? ref t.lexeme with
      | some contents =>
          rw [getProperty_of_field hfield, getProperty_of_field (h.lexeme ▸ hfield)]
          exact .ok rfl rfl
      | none =>
          rw [getProperty_of_no_field hfield, getProperty_of_no_field (h.lexeme ▸ hfield),
            ← h.lexeme]
          exact .error (Or.inl (.undefinedProperty h.line)) rfl
  | _ => exact throw_parallel (.noProperties h.line)

/-! ### Operators -/

theorem unknownOperator_moved (h : t.Moved L t') :
    (unknownOperator t).Moved L (unknownOperator t') := by
  unfold unknownOperator
  rw [h.lexeme]
  exact .unknownOperator h.line

theorem onNumbers_moved (h : t.Moved L t') (left right : Object)
    (operation : Float → Float → Object) :
    Step.SameOutcome (RuntimeError.Moved L) Eq (onNumbers t left right operation)
      (onNumbers t' left right operation) := by
  unfold onNumbers
  split
  · exact .ok rfl
  · exact .error (.operandsNotNumbers h.line)

theorem add_moved (h : t.Moved L t') (left right : Object) :
    Step.SameOutcome (RuntimeError.Moved L) Eq (add t left right) (add t' left right) := by
  unfold add
  split
  · exact .ok rfl
  · exact .ok rfl
  · exact .error (.operandsNotAddable h.line)

theorem binary_moved (h : t.Moved L t') (left right : Object) :
    Step.SameOutcome (RuntimeError.Moved L) Eq (binary t left right) (binary t' left right) := by
  unfold binary
  rw [h.kind]
  split
  case h_1 => exact add_moved h left right
  case h_9 => exact .ok rfl
  case h_10 => exact .ok rfl
  case h_11 => exact .error (unknownOperator_moved h)
  all_goals exact onNumbers_moved h left right _

theorem unary_moved (h : t.Moved L t') (operand : Object) :
    Step.SameOutcome (RuntimeError.Moved L) Eq (unary t operand) (unary t' operand) := by
  unfold unary
  rw [h.kind]
  split
  · split
    · exact .ok rfl
    · exact .error (.operandNotNumber h.line)
  · exact .ok rfl
  · exact .error (unknownOperator_moved h)

theorem settles_moved (h : t.Moved L t') (left : Object) :
    Step.SameOutcome (RuntimeError.Moved L) Eq (settles t left) (settles t' left) := by
  unfold settles
  rw [h.kind]
  split
  · exact .ok rfl
  · exact .ok rfl
  · exact .error (unknownOperator_moved h)

/-! ### Calls -/

theorem run_parallel (hhost : host.Unmoved L) (f : NativeFunction) (objects : List Object) :
    Parallel L nodes (run host f objects) (run host f objects) := by
  refine same_parallel _ fun m error m' h => ?_
  unfold run at h
  split at h
  · cases h
  · rename_i hrun
    cases h
    exact hhost _ _ _ _ _ _ hrun

theorem call_parallel (hhost : host.Unmoved L) {line line' : Nat} (h : L line line')
    (function : Object) (objects : List Object) :
    Parallel L nodes (call host line function objects) (call host line' function objects) := by
  unfold call
  cases function with
  | function f =>
      dsimp only
      split
      · exact run_parallel hhost f objects
      · exact throw_parallel (.arityMismatch h)
  | _ => exact throw_parallel (.notCallable h)

/-- The call that a node makes when its callee and its arguments are evaluated. -/
theorem node_parallel (hhost : host.Unmoved L) {callee callee' : Expr} {arguments : List Expr}
    (hnode : .call callee arguments ∈ nodes) (h : callee.Moved L callee') {function : Object}
    (hgives : Step.Gives (expr host callee) function) (objects : List Object) :
    Parallel L nodes (call host (callee.line?.getD 0) function objects)
      (call host (callee'.line?.getD 0) function objects) := by
  have hlines := Expr.line?_moved h
  cases hline : callee.line? with
  | some line =>
      cases hline' : callee'.line? with
      | none => rw [hline, hline'] at hlines; cases hlines
      | some line' =>
          rw [hline, hline'] at hlines
          cases hlines with
          | some hl => exact call_parallel hhost hl function objects
  | none =>
      cases hline' : callee'.line? with
      | some line' => rw [hline, hline'] at hlines; cases hlines
      | none =>
          obtain ⟨v, hconstant, rfl⟩ := value_of_no_line hline hgives
          exact .throw (Or.inr ⟨rfl, callee, arguments, v, hnode, hconstant, rfl⟩)

/-! ### Expressions -/

mutual

/-- **An evaluation comes to the same on any lines**, by induction on the expression. -/
theorem expr_parallel (hhost : host.Unmoved L) :
    ∀ {e e' : Expr}, e.Moved L e' → e.nodes ⊆ nodes →
      Parallel L nodes (expr host e) (expr host e')
  | _, _, .assign ht _ hv, hnodes => by
      rw [Expr.nodes, List.cons_subset, List.cons_subset] at hnodes
      rw [expr, expr]
      refine (expr_parallel hhost hv hnodes.2.2).bind ?_
      rintro object _ rfl _
      exact (assignVariable_parallel ht object).bind fun _ _ _ _ => .pure rfl
  | _, _, .binary hl ho hr, hnodes => by
      rw [Expr.nodes, List.cons_subset, List.append_subset] at hnodes
      rw [expr, expr]
      refine (expr_parallel hhost hl hnodes.2.1).bind ?_
      rintro first _ rfl _
      refine (expr_parallel hhost hr hnodes.2.2).bind ?_
      rintro second _ rfl _
      exact ofExcept_parallel (binary_moved ho first second)
  | _, _, .call hc has, hnodes => by
      rw [Expr.nodes, List.cons_subset, List.append_subset] at hnodes
      obtain ⟨hself, hcallee, harguments⟩ := hnodes
      rw [expr, expr]
      refine (expr_parallel hhost hc hcallee).bind ?_
      rintro function _ rfl hgives
      refine (exprs_parallel hhost has harguments).bind ?_
      rintro objects _ rfl _
      exact node_parallel hhost hself hc hgives objects
  | _, _, .get he hn, hnodes => by
      rw [Expr.nodes, List.cons_subset] at hnodes
      rw [expr, expr]
      refine (expr_parallel hhost he hnodes.2).bind ?_
      rintro object _ rfl _
      exact getProperty_parallel hn object
  | _, _, .grouping he, hnodes => by
      rw [Expr.nodes, List.cons_subset] at hnodes
      rw [expr, expr]
      exact expr_parallel hhost he hnodes.2
  | _, _, .literal hv, _ => by
      cases hv
      exact .pure rfl
  | _, _, .logical hl ho hr, hnodes => by
      rw [Expr.nodes, List.cons_subset, List.append_subset] at hnodes
      rw [expr, expr]
      refine (expr_parallel hhost hl hnodes.2.1).bind ?_
      rintro first _ rfl _
      refine (ofExcept_parallel (settles_moved ho first)).bind ?_
      rintro settled _ rfl _
      cases settled with
      | true => exact .pure rfl
      | false => exact expr_parallel hhost hr hnodes.2.2
  | _, _, .set he hn hv, hnodes => by
      rw [Expr.nodes, List.cons_subset, List.append_subset] at hnodes
      rw [expr, expr]
      refine (expr_parallel hhost he hnodes.2.1).bind ?_
      rintro object _ rfl _
      cases object with
      | inst ref =>
          refine (expr_parallel hhost hv hnodes.2.2).bind ?_
          rintro contents _ rfl _
          rw [hn.lexeme]
          refine (Step.Parallel.change ?_).bind fun _ _ _ _ => .pure rfl
          rintro m _ rfl
          rfl
      | _ => exact throw_parallel (.noFields hn.line)
  | _, _, .unary ho hr, hnodes => by
      rw [Expr.nodes, List.cons_subset] at hnodes
      rw [expr, expr]
      refine (expr_parallel hhost hr hnodes.2).bind ?_
      rintro operand _ rfl _
      exact ofExcept_parallel (unary_moved ho operand)
  | _, _, .var hn, _ => readVariable_parallel hn

theorem exprs_parallel (hhost : host.Unmoved L) :
    ∀ {es es' : List Expr}, Expr.AlikeList (Token.Moved L) Eq es es' →
      Expr.nodesOfList es ⊆ nodes → Parallel L nodes (exprs host es) (exprs host es')
  | _, _, .nil, _ => .pure rfl
  | _, _, .cons he hes, hnodes => by
      rw [Expr.nodesOfList, List.append_subset] at hnodes
      rw [exprs, exprs]
      refine (expr_parallel hhost he hnodes.1).bind ?_
      rintro object _ rfl _
      refine (exprs_parallel hhost hes hnodes.2).bind ?_
      rintro objects _ rfl _
      exact .pure rfl

end

end Eval

/-- A session comes to the same object and to the same memory on any lines, or to the same error. -/
theorem Session.evaluate_moved (s : Session) (hhost : s.host.Unmoved L) {e e' : Expr}
    (h : e.Moved L e') :
    Step.SameOutcome (RaisedMoved L e.nodes) Eq (s.evaluate e).1 (s.evaluate e').1
      ∧ (s.evaluate e).2 = (s.evaluate e').2 := by
  have hends := Eval.expr_parallel hhost h (List.Subset.refl _) s.memory s.memory rfl
  unfold evaluate
  generalize Eval.expr s.host e s.memory = result at hends ⊢
  generalize Eval.expr s.host e' s.memory = result' at hends ⊢
  cases hends with
  | ok ha hm => exact ⟨.ok ha, by rw [hm]⟩
  | error he hm => exact ⟨.error he, by rw [hm]⟩

end Lox
