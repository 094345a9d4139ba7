import Lox.Proofs.BoundNames
import Lox.Proofs.EvalSteps
import Lox.Proofs.Frame
import Lox.Proofs.Written

/-!
# Operators that are known

An expression can have any token as its operator, and evaluation has a meaning for some of them
only. Which operators a text can have is said by the rules of the grammar, eight of which are
about operators. Do the two agree? They do for each of the three kinds of nodes, so that no text
comes to an operator that is unknown.

A result is `Known` if it is not the error of such an operator. A function of the host could fail
with that error by itself, which is left out by `Host.Versed`.
-/

namespace Lox

/-- The result is not that an operator is unknown. -/
def Known {α : Type} (result : Except RuntimeError α) : Prop :=
  ∀ lexeme line, result ≠ .error (.unknownOperator lexeme line)

/-- No function of the host fails with an unknown operator. -/
def Host.Versed (host : Host) : Prop :=
  ∀ moment number arguments heap,
    Known (Step.outcome (host.behaviour moment number arguments heap))

/-! ## What each kind of node has a meaning for -/

namespace Eval

variable {operator : Token} {left right : Object}

theorem known_onNumbers {operation : Float → Float → Object} :
    Known (onNumbers operator left right operation) := by
  unfold onNumbers
  split <;> nofun

theorem known_add : Known (add operator left right) := by
  unfold add
  split <;> nofun

theorem not_known_unknownOperator {α : Type} :
    ¬Known (.error (unknownOperator operator) : Except RuntimeError α) :=
  fun h => h _ _ rfl

/-- **Between two operands, the operators that a text can have there are those with a meaning**,
whatever the operands are. -/
theorem known_binary : Known (binary operator left right) ↔ operator.kind ∈ TokenKind.betweens := by
  unfold binary
  cases operator.kind with
  | plus => exact iff_of_true known_add (by decide)
  | equalEqual => exact iff_of_true nofun (by decide)
  | bangEqual => exact iff_of_true nofun (by decide)
  | minus => exact iff_of_true known_onNumbers (by decide)
  | star => exact iff_of_true known_onNumbers (by decide)
  | slash => exact iff_of_true known_onNumbers (by decide)
  | greater => exact iff_of_true known_onNumbers (by decide)
  | greaterEqual => exact iff_of_true known_onNumbers (by decide)
  | less => exact iff_of_true known_onNumbers (by decide)
  | lessEqual => exact iff_of_true known_onNumbers (by decide)
  | _ => exact iff_of_false not_known_unknownOperator (by decide)

/-- The same of the operators in front of an operand. -/
theorem known_unary : Known (unary operator right) ↔ operator.kind ∈ TokenKind.signs := by
  unfold unary
  cases operator.kind with
  | minus =>
      refine iff_of_true ?_ (by decide)
      dsimp only
      split <;> nofun
  | bang => exact iff_of_true nofun (by decide)
  | _ => exact iff_of_false not_known_unknownOperator (by decide)

/-- And of those that may leave their right operand unevaluated. -/
theorem known_settles : Known (settles operator left) ↔ operator.kind ∈ TokenKind.choices := by
  unfold settles
  cases operator.kind with
  | orWord => exact iff_of_true nofun (by decide)
  | andWord => exact iff_of_true nofun (by decide)
  | _ => exact iff_of_false not_known_unknownOperator (by decide)

end Eval

/-! ## What a written tree has there -/

namespace Expr.Written

variable {operator : Token} {left right : Expr}

theorem known_binary (h : (Expr.binary left operator right).Written) (first second : Object) :
    Known (Eval.binary operator first second) := by
  cases h with
  | binary _ hoperator => exact Eval.known_binary.mpr hoperator.kind

theorem known_unary (h : (Expr.unary operator right).Written) (operand : Object) :
    Known (Eval.unary operator operand) := by
  cases h with
  | unary hoperator => exact Eval.known_unary.mpr hoperator.kind

theorem known_settles (h : (Expr.logical left operator right).Written) (first : Object) :
    Known (Eval.settles operator first) := by
  cases h with
  | logical _ hoperator => exact Eval.known_settles.mpr hoperator.kind

end Expr.Written

/-! ## Steps of an evaluation -/

/-- A step that comes to no unknown operator. -/
def Versed {α : Type} (step : Eval α) : Prop := ∀ m, Known (Step.outcome (step m))

namespace Versed

variable {α β : Type} {host : Host} {step : Eval α}

theorem pure (a : α) : Versed (Pure.pure a) := fun _ => nofun

theorem bind {step' : α → Eval β} (h : Versed step) (h' : ∀ a, Versed (step' a)) :
    Versed (step >>= step') := by
  intro m
  have hm := h m
  cases hstep : step m with
  | ok a m' =>
      rw [Step.bind_of_ok hstep]
      exact h' a m'
  | error error m' =>
      rw [hstep] at hm
      rw [Step.bind_of_error hstep]
      exact fun lexeme line herror => hm lexeme line (by cases herror; rfl)

theorem ofExcept {result : Except RuntimeError α} (h : Known result) :
    Versed (MonadExcept.ofExcept result) := by
  intro m
  cases result with
  | ok a => nofun
  | error error => exact h

theorem readVariable (name : Token) : Versed (Eval.readVariable name) := by
  intro m
  unfold Eval.readVariable
  cases hget : m.globals.get name with
  | ok object => nofun
  | error error =>
      obtain ⟨_, rfl⟩ := Environment.not_contains_of_get hget
      nofun

theorem assignVariable (name : Token) (object : Object) :
    Versed (Eval.assignVariable name object) := by
  intro m
  unfold Eval.assignVariable
  cases hassign : m.globals.assign name object with
  | ok globals => nofun
  | error error =>
      obtain ⟨_, rfl⟩ := Environment.not_contains_of_assign hassign
      nofun

theorem run (hhost : host.Versed) (f : NativeFunction) (arguments : List Object) :
    Versed (Eval.run host f arguments) := by
  intro m
  have hbehaviour := hhost m.moment f.number arguments m.heap
  unfold Eval.run
  cases hrun : host.behaviour m.moment f.number arguments m.heap with
  | ok object heap => nofun
  | error error heap =>
      rw [hrun] at hbehaviour
      exact hbehaviour

theorem call (hhost : host.Versed) (line : Nat) (callee : Object) (arguments : List Object) :
    Versed (Eval.call host line callee arguments) := by
  unfold Eval.call
  cases callee with
  | function f =>
      dsimp only
      split
      · exact run hhost f arguments
      · exact fun _ => nofun
  | _ => exact fun _ => nofun

theorem getProperty (object : Object) (name : Token) : Versed (Eval.getProperty object name) := by
  cases object with
  | inst ref =>
      intro m
      cases hfield : m.heap.field? ref name.lexeme with
      | some contents => rw [Eval.getProperty_of_field hfield]; nofun
      | none => rw [Eval.getProperty_of_no_field hfield]; nofun
  | _ => exact fun _ => nofun

/-- **The steps that the nodes of a written tree make come to no unknown operator.** -/
theorem closed {nodes : List Expr} (hhost : host.Versed) (hnodes : ∀ node ∈ nodes, node.Written) :
    Eval.Closed host nodes Versed where
  pure := pure
  bind := bind
  readVariable _ := readVariable _
  assignVariable _ object := assignVariable _ object
  unary hnode operand := ofExcept ((hnodes _ hnode).known_unary operand)
  binary hnode first second := ofExcept ((hnodes _ hnode).known_binary first second)
  settles hnode first := ofExcept ((hnodes _ hnode).known_settles first)
  call _ := call hhost _
  getProperty _ first := getProperty first _
  setField _ _ _ := fun _ => nofun
  noFields _ := fun _ => nofun

end Versed

/-! ## Expressions that a text denotes -/

theorem Session.known_evaluate {s : Session} {e : Expr} (hhost : s.host.Versed) (he : e.Written) :
    Known (s.evaluate e).1 := by
  rw [evaluate_eq]
  exact (Versed.closed hhost fun _ hnode => he.node hnode).expr (List.Subset.refl _) s.memory

/-- The functions that are always there fail with nothing but what is wrong with the clock. -/
theorem Session.start_versed (clock : Clock) : (start clock).host.Versed := by
  refine start_forall (fun behaviour => ∀ arguments heap,
    Known (Step.outcome (behaviour arguments heap))) ?_ nofun nofun
  intro moment arguments heap
  cases hshows : clock.shows moment with
  | ok time => rw [Host.clock_of_ok hshows]; nofun
  | error problem => rw [Host.clock_of_error hshows]; nofun

/--
**No text comes to an operator that is unknown.**

The operators in the expression of a text are, node by node, ones that evaluation has a meaning
for, with any operands. So an evaluation in any memory, after any other evaluations, does not fail
with an unknown operator, as long as no function of the host does.
-/
theorem parsed_operators_are_known :
    (∀ (text : String) (e : Expr), parse text = .ok e →
      (∀ left operator right, .binary left operator right ∈ e.nodes →
        ∀ first second, Known (Eval.binary operator first second))
      ∧ (∀ left operator right, .logical left operator right ∈ e.nodes →
        ∀ first, Known (Eval.settles operator first))
      ∧ ∀ operator right, .unary operator right ∈ e.nodes →
        ∀ operand, Known (Eval.unary operator operand))
    ∧ ∀ (s : Session), s.host.Versed → ∀ (earlier : List Expr) (text : String) (e : Expr),
      parse text = .ok e → ∀ lexeme line,
        ((s.after earlier).evaluate e).1 ≠ .error (.unknownOperator lexeme line) := by
  refine ⟨fun text e hparse => ?operators, fun s hhost earlier text e hparse => ?evaluates⟩
  case operators =>
    have hwritten := parse_written hparse
    refine ⟨?_, ?_, ?_⟩
    · intro left operator right hnode first second
      exact (hwritten.node hnode).known_binary first second
    · intro left operator right hnode first
      exact (hwritten.node hnode).known_settles first
    · intro operator right hnode operand
      exact (hwritten.node hnode).known_unary operand
  case evaluates =>
    -- the functions of the host are the same behind the earlier evaluations
    have hsame := (s.after_names earlier).2
    exact Session.known_evaluate (hsame ▸ hhost) (parse_written hparse)

/-- A sum of one operand has no meaning, and no text: one is evaluated behind it. -/
theorem parsed_operators_are_known_denial :
    let bang : Token := ⟨.bang, "!", none, 1⟩
    let plus : Token := ⟨.plus, "+", none, 1⟩
    let sum : Expr := .unary plus (.literal .nil)
    let e : Expr := .unary bang (.literal .nil)
    let s := Session.start (.stopped 0)
    (s.evaluate sum).1 = .error (.unknownOperator "+" 1) ∧ s.host.Versed
      ∧ parse "!nil" = .ok e ∧ Known (Eval.unary bang .nil)
      ∧ ((s.after [sum]).evaluate e).1 = .ok (.value (.boolean true))
      ∧ ∀ lexeme line, ((s.after [sum]).evaluate e).1 ≠ .error (.unknownOperator lexeme line) := by
  intro bang plus sum e s
  have hscan : Scan.ofText "!nil" = ⟨[bang, ⟨.nilWord, "nil", some .nil, 1⟩], .finished 1⟩ := rfl
  have hparse : parse "!nil" = .ok e := parse_of_scan hscan rfl
  have hhost := Session.start_versed (.stopped 0)
  obtain ⟨hoperators, hevaluates⟩ := parsed_operators_are_known
  refine ⟨rfl, hhost, hparse, ?_, rfl, hevaluates s hhost [sum] _ e hparse⟩
  exact (hoperators _ e hparse).2.2 bang _ (List.mem_cons_self ..) _

end Lox
