import Lox.Proofs.Prediction

/-!
# Laws of the operators that choose

`and` and `or` give one of their operands and not a truth value, and the right operand is evaluated
only if the left one has not settled what comes of both. Are they still associative, and does a
negation turn one into the other? Operands change variables and instances, and they fail; so this is
to say that the same operands are evaluated, in the same order and up to the same error.

`Step.choice` is all that the two operators do. Its laws are laws of any steps, and so they hold of
evaluations with a list of uses beside the memory. What comes out without the list is then the same
too (`Observed.eval_eq`).
-/

namespace Lox

/-! ## Two steps of which the first can be enough -/

namespace Step

variable {ε σ α β : Type}

/-- Makes the first step, and then the second one unless the first result settles the matter. -/
def choice (settled : α → Bool) (x y : EStateM ε σ α) : EStateM ε σ α := do
  let a ← x
  if settled a then return a else y

/-- Of three steps, it does not matter which two belong together. -/
theorem choice_assoc (settled : α → Bool) (x y z : EStateM ε σ α) :
    choice settled (choice settled x y) z = choice settled x (choice settled y z) := by
  unfold choice
  rw [bind_assoc]
  refine bind_congr fun a => ?_
  by_cases ha : settled a = true
  · rw [if_pos ha, if_pos ha, pure_bind, if_pos ha]
  · rw [if_neg ha, if_neg ha]

/-- What is made of the result can be made of either result, if it settles the matter as before. -/
theorem choice_map {settled : α → Bool} {settled' : β → Bool} {f : α → β}
    (h : ∀ a, settled' (f a) = settled a) (x y : EStateM ε σ α) :
    (choice settled x y >>= fun a => pure (f a))
      = choice settled' (x >>= fun a => pure (f a)) (y >>= fun a => pure (f a)) := by
  unfold choice
  rw [bind_assoc, bind_assoc]
  refine bind_congr fun a => ?_
  rw [pure_bind, h a]
  by_cases ha : settled a = true
  · rw [if_pos ha, if_pos ha, pure_bind]
  · rw [if_neg ha, if_neg ha]

end Step

/-! ## The two operators -/

/-- The operators that may leave their right operand unevaluated. -/
inductive Choice where
  | conjunction
  | disjunction

namespace Choice

def kind : Choice → TokenKind
  | conjunction => .andWord
  | disjunction => .orWord

/-- The operator that a negation of both operands asks for. -/
def dual : Choice → Choice
  | conjunction => disjunction
  | disjunction => conjunction

/-- Whether the operator leaves its right operand unevaluated behind this object. -/
def settled : Choice → Object → Bool
  | conjunction, object => !object.isTruthy
  | disjunction, object => object.isTruthy

/-- The negation of an object. -/
def denial (object : Object) : Object := .boolean !object.isTruthy

/-- What settles an operator settles the other one when it is negated. -/
theorem settled_denial (k : Choice) (object : Object) :
    k.dual.settled (denial object) = k.settled object := by
  cases k with
  | conjunction => rfl
  | disjunction => exact Bool.not_not object.isTruthy

theorem settles_eq {k : Choice} {operator : Token} (h : operator.kind = k.kind) (first : Object) :
    Eval.settles operator first = .ok (k.settled first) := by
  unfold Eval.settles
  rw [h]
  cases k <;> rfl

end Choice

theorem unary_denial {operator : Token} (h : operator.kind = .bang) (operand : Object) :
    Eval.unary operator operand = .ok (Choice.denial operand) := by
  unfold Eval.unary
  rw [h]
  rfl

/-! ## Evaluation -/

namespace Observed

section

variable {host : Host} {k : Choice} {operator : Token}

theorem expr_logical (h : operator.kind = k.kind) (left right : Expr) :
    expr Event.use? host (.logical left operator right)
      = Step.choice k.settled (expr Event.use? host left) (expr Event.use? host right) := by
  rw [expr, noted_of_none fun _ => rfl]
  refine bind_congr fun first => ?_
  rw [Choice.settles_eq h]
  rfl

theorem expr_denial (h : operator.kind = .bang) (right : Expr) :
    expr Event.use? host (.unary operator right)
      = expr Event.use? host right >>= fun operand => pure (Choice.denial operand) := by
  rw [expr, noted_of_none fun _ => rfl]
  refine bind_congr fun operand => ?_
  rw [unary_denial h]
  rfl

theorem expr_grouping (inner : Expr) :
    expr Event.use? host (.grouping inner) = expr Event.use? host inner := by
  rw [expr, noted_of_none fun _ => rfl]

end

/-- The list of uses takes nothing away from what comes out of a step. -/
theorem noting_injective {α : Type} {uses uses' : List Use}
    {result result' : EStateM.Result RuntimeError Memory α}
    (h : noting uses result = noting uses' result') : result = result' := by
  cases result with
  | ok a m =>
      cases result' with
      | ok a' m' =>
          cases h
          rfl
      | error => cases h
  | error error m =>
      cases result' with
      | ok => cases h
      | error error' m' =>
          cases h
          rfl

/-- So expressions that use the same variables on the way to the same are evaluated to the same. -/
theorem eval_eq {host : Host} {e e' : Expr}
    (h : expr Event.use? host e = expr Event.use? host e') :
    Eval.expr host e = Eval.expr host e' := by
  funext m
  obtain ⟨uses, hobserved, _⟩ := expr_follows host false e m []
  obtain ⟨uses', hobserved', _⟩ := expr_follows host false e' m []
  rw [h, hobserved'] at hobserved
  exact (noting_injective hobserved).symm

end Observed

/-! ## Expressions that come to the same -/

namespace Expr

/-- Nothing tells the two expressions apart when they are resolved or evaluated. -/
structure Same (e e' : Expr) : Prop where
  /-- Any session has the same answer and becomes the same. -/
  evaluate : ∀ s : Session, s.evaluate e = s.evaluate e'
  /-- The same variables are used one after the other, up to the same error if there is one. -/
  uses : ∀ host m uses,
    Observed.expr Event.use? host e (m, uses) = Observed.expr Event.use? host e' (m, uses)
  /-- Any resolver has the same answer and has recorded the same. -/
  resolve : ∀ r : Resolver, r.resolve e = r.resolve e'

theorem Same.of_eq {e e' : Expr}
    (huses : ∀ host, Observed.expr Event.use? host e = Observed.expr Event.use? host e')
    (hreferences : e.references false = e'.references false) : e.Same e' where
  evaluate := fun s => by
    unfold Session.evaluate
    rw [Observed.eval_eq (huses s.host)]
  uses := fun host m uses => by rw [huses]
  resolve := Resolver.resolve_congr hreferences

/-- The second expression is the first one in any number of parentheses. -/
inductive Grouped (e : Expr) : Expr → Prop where
  | bare : Grouped e e
  | grouping {e' : Expr} : Grouped e e' → Grouped e (grouping e')

namespace Grouped

variable {e e' : Expr}

theorem uses_eq (h : e.Grouped e') (host : Host) :
    Observed.expr Event.use? host e' = Observed.expr Event.use? host e := by
  induction h with
  | bare => rfl
  | grouping _ ih => rw [Observed.expr_grouping, ih]

theorem references_eq (h : e.Grouped e') (conditional : Bool) :
    e'.references conditional = e.references conditional := by
  induction h with
  | bare => rfl
  | grouping _ ih => rw [references, ih]

end Grouped

end Expr

open Lox.Expr (Grouped Same)

/--
**`and` and `or` are associative, and a negation turns one into the other.**

Three operands of one of the operators can be put together in two ways, and the negation of both
operands makes the other operator of a negated one. In each case the two expressions come to the
same object or to the same error, and leave the same session; they use the same variables in the
same order; and a resolver records the same references for them, with the same conditions, or fails
with the same error. The expressions in parentheses may also stand there without any, or with more
of them.
-/
theorem choices_obey_laws (k : Choice) (a b c : Expr) :
    (∀ o₁ o₂ o₃ o₄ : Token, (∀ o ∈ [o₁, o₂, o₃, o₄], o.kind = k.kind) →
        ∀ ab bc, Grouped (.logical a o₁ b) ab → Grouped (.logical b o₄ c) bc →
          Same (.logical ab o₂ c) (.logical a o₃ bc))
      ∧ ∀ o o' n₁ n₂ n₃ : Token, o.kind = k.kind → o'.kind = k.dual.kind →
        (∀ n ∈ [n₁, n₂, n₃], n.kind = .bang) →
          ∀ ab, Grouped (.logical a o b) ab →
            Same (.unary n₁ ab) (.logical (.unary n₂ a) o' (.unary n₃ b)) := by
  refine ⟨fun o₁ o₂ o₃ o₄ ho ab bc hab hbc => ?_, fun o o' n₁ n₂ n₃ ho ho' hn ab hab => ?_⟩
  · simp only [List.forall_mem_cons] at ho
    obtain ⟨ho₁, ho₂, ho₃, ho₄, _⟩ := ho
    refine .of_eq (fun host => ?_) ?_
    · rw [Observed.expr_logical ho₂, Observed.expr_logical ho₃, hab.uses_eq, hbc.uses_eq,
        Observed.expr_logical ho₁, Observed.expr_logical ho₄, Step.choice_assoc]
    · rw [Expr.references, Expr.references, hab.references_eq, hbc.references_eq, Expr.references,
        Expr.references, List.append_assoc]
  · simp only [List.forall_mem_cons] at hn
    obtain ⟨hn₁, hn₂, hn₃, _⟩ := hn
    refine .of_eq (fun host => ?_) ?_
    · rw [Observed.expr_denial hn₁, hab.uses_eq, Observed.expr_logical ho,
        Observed.expr_logical ho', Observed.expr_denial hn₂, Observed.expr_denial hn₃,
        Step.choice_map k.settled_denial]
    · calc ab.references false
          = (a.references false ++ b.references true) := by rw [hab.references_eq, Expr.references]
        _ = _ := by simp only [Expr.references]

/-- `x and (x = nil) and y`, of which `y` is not there to be read but is not reached either, and
`!(x and y)`, in which it is reached. -/
theorem choices_obey_laws_unreached :
    let word (kind : TokenKind) (lexeme : String) : Token := ⟨kind, lexeme, none, 1⟩
    let both := word .andWord "and"
    let either := word .orWord "or"
    let not := word .bang "!"
    let x : Expr := .var (word .identifier "x")
    let y : Expr := .var (word .identifier "y")
    let reset : Expr := .assign (word .identifier "x") (word .equal "=") (.literal .nil)
    let s := Session.empty.define "x" (.boolean true)
    let done := s.evaluate (.logical (.logical x both (.grouping reset)) both y)
    done = s.evaluate (.logical x both (.logical (.grouping reset) both y))
      ∧ done.1 = .ok .nil ∧ done.2.memory.globals.find? "x" = some .nil
      ∧ (s.evaluate (.unary not (.grouping (.logical x both y)))).1
          = .error (.undefinedVariable "y" 1)
      ∧ (s.evaluate (.logical (.unary not x) either (.unary not y))).1
          = .error (.undefinedVariable "y" 1) := by
  intro word both either not x y reset s done
  obtain ⟨hassoc, hnegation⟩ := choices_obey_laws .conjunction x (.grouping reset) y
  have hsame := hassoc both both both both (by simp [both, word, Choice.kind]) _ _ .bare .bare
  obtain ⟨_, hdenied⟩ := choices_obey_laws .conjunction x y y
  have hdenial := hdenied both either not not not rfl rfl (by simp [not, word]) _ (.grouping .bare)
  exact ⟨hsame.evaluate s, rfl, rfl, rfl, by rw [← hdenial.evaluate s]; rfl⟩

end Lox
