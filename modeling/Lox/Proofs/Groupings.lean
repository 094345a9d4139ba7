import Lox.Proofs.References
import Lox.Session

/-!
# What parentheses are for

Does it matter that a pair of parentheses is a node of its own? A text needs them to say which
operand belongs to which operator. A tree says so by its shape, and so its groupings can be taken
out: what is left has the same line, the same references, and evaluates in the same way.

A grouping may stand where a node looks at one of its parts and not only at what comes of it. The
callee of a call is such a part, for its line goes into the errors of the call. That line is the
one of what is in the parentheses, so the errors are the same too.
-/

namespace Lox

namespace Expr

/-! ## Trees without groupings -/

mutual

/-- The expression with what is in them in the place of all groupings. -/
def strip : Expr → Expr
  | assign target operator value => assign target operator value.strip
  | binary left operator right => binary left.strip operator right.strip
  | call callee arguments => call callee.strip (stripList arguments)
  | get object name => get object.strip name
  | grouping inner => inner.strip
  | literal value => literal value
  | logical left operator right => logical left.strip operator right.strip
  | set object name value => set object.strip name value.strip
  | unary operator right => unary operator right.strip
  | var name => var name

/-- Each of several expressions without its groupings. -/
def stripList : List Expr → List Expr
  | [] => []
  | e :: es => e.strip :: stripList es

end

/-- Whether an expression is in parentheses. -/
def isGrouping : Expr → Bool
  | grouping _ => true
  | _ => false

mutual

/-- **Only the groupings are taken out**: the nodes that are left are the other ones, in the same
order, each of them without its groupings. -/
theorem nodes_strip : ∀ e : Expr, e.strip.nodes = (e.nodes.filter (!·.isGrouping)).map strip
  | assign target operator value => by
      rw [strip, nodes, nodes, nodes_strip value]
      rfl
  | binary left operator right => by
      rw [strip, nodes, nodes, nodes_strip left, nodes_strip right, ← List.map_append,
        ← List.filter_append]
      rfl
  | call callee arguments => by
      rw [strip, nodes, nodes, nodes_strip callee, nodesOfList_strip arguments, ← List.map_append,
        ← List.filter_append]
      rfl
  | get object name => by
      rw [strip, nodes, nodes, nodes_strip object]
      rfl
  | grouping inner => by
      rw [strip, nodes, nodes_strip inner]
      rfl
  | literal value => rfl
  | logical left operator right => by
      rw [strip, nodes, nodes, nodes_strip left, nodes_strip right, ← List.map_append,
        ← List.filter_append]
      rfl
  | set object name value => by
      rw [strip, nodes, nodes, nodes_strip object, nodes_strip value, ← List.map_append,
        ← List.filter_append]
      rfl
  | unary operator right => by
      rw [strip, nodes, nodes, nodes_strip right]
      rfl
  | var name => rfl

theorem nodesOfList_strip :
    ∀ es : List Expr,
      nodesOfList (stripList es) = ((nodesOfList es).filter (!·.isGrouping)).map strip
  | [] => rfl
  | e :: es => by
      rw [stripList, nodesOfList, nodesOfList, nodes_strip e, nodesOfList_strip es,
        ← List.map_append, ← List.filter_append]

end

/-- A node that is no grouping does not become one. -/
theorem isGrouping_strip_of_not {e : Expr} (h : e.isGrouping = false) :
    e.strip.isGrouping = false := by
  cases e with
  | grouping inner => cases h
  | _ => rfl

/-- No grouping is left. -/
theorem not_isGrouping_of_mem_strip {e node : Expr} (h : node ∈ e.strip.nodes) :
    node.isGrouping = false := by
  rw [nodes_strip, List.mem_map] at h
  obtain ⟨node, hnode, rfl⟩ := h
  have hother : (!node.isGrouping) = true := (List.mem_filter.mp hnode).2
  exact isGrouping_strip_of_not ((Bool.not_eq_true' _).mp hother)

/-! ## Lines and references -/

theorem line?_strip (e : Expr) : e.strip.line? = e.line? := by
  fun_induction line? e with
  | case3 callee arguments ih => exact ih
  | case5 inner ih => exact ih
  | _ => rfl

mutual

theorem references_strip :
    ∀ (conditional : Bool) (e : Expr), e.strip.references conditional = e.references conditional
  | c, assign target operator value => by
      rw [strip, references, references, references_strip c value]
  | c, binary left operator right => by
      rw [strip, references, references, references_strip c left, references_strip c right]
  | c, call callee arguments => by
      rw [strip, references, references, references_strip c callee,
        referencesOfList_strip c arguments]
  | c, get object name => references_strip c object
  | c, grouping inner => references_strip c inner
  | _, literal value => rfl
  | c, logical left operator right => by
      rw [strip, references, references, references_strip c left, references_strip true right]
  | c, set object name value => by
      rw [strip, references, references, references_strip c object, references_strip c value]
  | c, unary operator right => references_strip c right
  | _, var name => rfl

theorem referencesOfList_strip :
    ∀ (conditional : Bool) (es : List Expr),
      referencesOfList conditional (stripList es) = referencesOfList conditional es
  | _, [] => rfl
  | c, e :: es => by
      rw [stripList, referencesOfList, referencesOfList, references_strip c e,
        referencesOfList_strip c es]

end

end Expr

/-- A resolver goes through the references, and these are the same. -/
theorem Resolver.resolve_strip (r : Resolver) (e : Expr) : r.resolve e.strip = r.resolve e :=
  resolve_congr (e.references_strip false) r

/-! ## Evaluation -/

namespace Eval

open Lox.Expr (strip stripList)

mutual

/-- **A tree without its groupings is evaluated by the same steps**, by induction on the tree. -/
theorem expr_strip (host : Host) : ∀ e : Expr, expr host e.strip = expr host e
  | .assign target operator value => by
      rw [strip, expr, expr, expr_strip host value]
  | .binary left operator right => by
      rw [strip, expr, expr, expr_strip host left, expr_strip host right]
  | .call callee arguments => by
      -- the callee is evaluated, and asked for its line
      rw [strip, expr, expr, expr_strip host callee, exprs_strip host arguments, callee.line?_strip]
  | .get object name => by
      rw [strip, expr, expr, expr_strip host object]
  | .grouping inner => by
      rw [strip, expr, expr_strip host inner]
  | .literal value => rfl
  | .logical left operator right => by
      rw [strip, expr, expr, expr_strip host left, expr_strip host right]
  | .set object name value => by
      rw [strip, expr, expr, expr_strip host object, expr_strip host value]
  | .unary operator right => by
      rw [strip, expr, expr, expr_strip host right]
  | .var name => rfl

theorem exprs_strip (host : Host) : ∀ es : List Expr, exprs host (stripList es) = exprs host es
  | [] => rfl
  | e :: es => by
      rw [stripList, exprs, exprs, expr_strip host e, exprs_strip host es]

end

end Eval

theorem Session.evaluate_strip (s : Session) (e : Expr) : s.evaluate e.strip = s.evaluate e := by
  unfold evaluate
  rw [Eval.expr_strip]

/--
**Groupings are only for the text.**

Without its groupings an expression has no grouping, and otherwise the nodes that it had. It is on
the same line or on none. Any resolver, with whatever scope and whatever it has recorded before,
records the same references and fails with the same error, if it fails. In any session it comes to
the same object or fails with the same error, and leaves the same session.
-/
theorem groupings_change_nothing (e : Expr) :
    (∀ node ∈ e.strip.nodes, node.isGrouping = false)
      ∧ e.strip.nodes = (e.nodes.filter (!·.isGrouping)).map Expr.strip
      ∧ e.strip.line? = e.line?
      ∧ (∀ r : Resolver, r.resolve e.strip = r.resolve e)
      ∧ ∀ s : Session, s.evaluate e.strip = s.evaluate e :=
  ⟨fun _ => Expr.not_isGrouping_of_mem_strip, e.nodes_strip, e.line?_strip,
    fun r => r.resolve_strip e, fun s => s.evaluate_strip e⟩

end Lox
