import Lox.Expr
import Lox.Expr.SyntaxError

/-!
# The grammar of expressions

When is a list of tokens an expression, and which one? The answer here does not mention a parser:
`Derives rule ts e` says that the tokens `ts`, read by a rule of the grammar, are the tree `e`.

    assignment  →  ( call "." )? IDENTIFIER "=" assignment | disjunction
    disjunction →  conjunction ( "or" conjunction )*
    conjunction →  equality ( "and" equality )*
    equality    →  comparison ( ( "!=" | "==" ) comparison )*
    comparison  →  term ( ( ">" | ">=" | "<" | "<=" ) term )*
    term        →  factor ( ( "-" | "+" ) factor )*
    factor      →  unary ( ( "/" | "*" ) unary )*
    unary       →  ( "!" | "-" ) unary | call
    call        →  primary ( "(" arguments? ")" | "." IDENTIFIER )*
    primary     →  "true" | "false" | "nil" | NUMBER | STRING | IDENTIFIER | "(" assignment ")"

A repetition groups to the left, so its last operator is the root of the tree, with a phrase of
the same rule on its left and one of the next tighter rule on its right.

The two limits are no part of the grammar. They are read off the tree: `Expr.nesting` is how many
levels are open at the deepest place, and `Expr.arity` is the length of the longest argument list.
-/

namespace Lox

/-! ## The rules -/

/-- The rules, from the one that binds loosest to the one that binds tightest. -/
inductive Rule where
  | assignment
  | disjunction
  | conjunction
  | equality
  | comparison
  | term
  | factor
  | unary
  | call
  | primary
deriving DecidableEq, Repr

namespace Rule

/-- The rule whose phrases are also phrases of this one, as they stand. -/
def tighter? : Rule → Option Rule
  | assignment => some disjunction
  | disjunction => some conjunction
  | conjunction => some equality
  | equality => some comparison
  | comparison => some term
  | term => some factor
  | factor => some unary
  | unary => some call
  | call => some primary
  | primary => none

/-- The operators a rule repeats its phrases with. -/
def operators : Rule → List TokenKind
  | disjunction => [.orWord]
  | conjunction => [.andWord]
  | equality => [.bangEqual, .equalEqual]
  | comparison => [.greater, .greaterEqual, .less, .lessEqual]
  | term => [.minus, .plus]
  | factor => [.slash, .star]
  | _ => []

/-- The node of an operator between two phrases. -/
def combine : Rule → Expr → Token → Expr → Expr
  | disjunction => Expr.logical
  | conjunction => Expr.logical
  | _ => Expr.binary

end Rule

namespace TokenKind

/-- The kinds of the tokens that stand for a value. -/
def literals : List TokenKind := [.trueWord, .falseWord, .nilWord, .number, .string]

/-- The operators that stand in front of their operand. -/
def signs : List TokenKind := [.bang, .minus]

end TokenKind

/-! ## Derivations -/

/-- `Separated parts ts`: the parts in their order, with a comma between each two, are `ts`. -/
inductive Separated : List (List Token) → List Token → Prop where
  | none : Separated [] []
  | one {ts : List Token} : Separated [ts] ts
  | more {ts rest next : List Token} {parts : List (List Token)} {comma : Token} :
      comma.kind = .comma → Separated (next :: parts) rest →
      Separated (ts :: next :: parts) (ts ++ comma :: rest)

/--
`Derives rule ts e`: by this rule, the tokens `ts` are the expression `e`.

Every token of the list has its place in exactly one step of a derivation. Names, operators and
literals stay in the tree as they are; parentheses, commas, points and the `=` of a property do
not.
-/
inductive Derives : Rule → List Token → Expr → Prop where
  | tighter {rule next : Rule} {ts : List Token} {e : Expr} :
      rule.tighter? = some next → Derives next ts e → Derives rule ts e
  | assign {name equals : Token} {ts : List Token} {value : Expr} :
      name.kind = .identifier → equals.kind = .equal → Derives .assignment ts value →
      Derives .assignment (name :: equals :: ts) (.assign name equals value)
  | set {os ts : List Token} {object value : Expr} {dot name equals : Token} :
      Derives .call os object → dot.kind = .dot → name.kind = .identifier →
      equals.kind = .equal → Derives .assignment ts value →
      Derives .assignment (os ++ dot :: name :: equals :: ts) (.set object name value)
  | operation {rule next : Rule} {ls rs : List Token} {left right : Expr} {operator : Token} :
      Derives rule ls left → operator.kind ∈ rule.operators → rule.tighter? = some next →
      Derives next rs right →
      Derives rule (ls ++ operator :: rs) (rule.combine left operator right)
  | unary {operator : Token} {ts : List Token} {right : Expr} :
      operator.kind ∈ TokenKind.signs → Derives .unary ts right →
      Derives .unary (operator :: ts) (.unary operator right)
  | call {cs ts : List Token} {callee : Expr} {opening closing : Token}
      {arguments : List (List Token × Expr)} :
      Derives .call cs callee → opening.kind = .leftParen →
      (∀ a ∈ arguments, Derives .assignment a.1 a.2) →
      Separated (arguments.map Prod.fst) ts → closing.kind = .rightParen →
      Derives .call (cs ++ opening :: (ts ++ [closing])) (.call callee (arguments.map Prod.snd))
  | get {os : List Token} {object : Expr} {dot name : Token} :
      Derives .call os object → dot.kind = .dot → name.kind = .identifier →
      Derives .call (os ++ [dot, name]) (.get object name)
  | grouping {opening closing : Token} {ts : List Token} {inner : Expr} :
      opening.kind = .leftParen → Derives .assignment ts inner → closing.kind = .rightParen →
      Derives .primary (opening :: (ts ++ [closing])) (.grouping inner)
  | literal {token : Token} {value : Value} :
      token.kind ∈ TokenKind.literals → token.literal = some value →
      Derives .primary [token] (.literal value)
  | var {name : Token} :
      name.kind = .identifier → Derives .primary [name] (.var name)

/-! ## The limits -/

namespace Expr

mutual

/-- How many levels are open at the deepest place of an expression. A grouping, an argument list,
an operand behind a sign and an assigned value lie one level further in than what they are part
of. -/
def nesting : Expr → Nat
  | assign _ _ value => value.nesting + 1
  | binary left _ right => max left.nesting right.nesting
  | call callee arguments => max callee.nesting (nestingOfList arguments + 1)
  | get object _ => object.nesting
  | grouping inner => inner.nesting + 1
  | literal _ => 0
  | logical left _ right => max left.nesting right.nesting
  | set object _ value => max object.nesting (value.nesting + 1)
  | unary _ right => right.nesting + 1
  | var _ => 0

/-- The deepest place of several expressions. -/
def nestingOfList : List Expr → Nat
  | [] => 0
  | e :: es => max e.nesting (nestingOfList es)

end

mutual

/-- The number of arguments of the call that has the most. -/
def arity : Expr → Nat
  | assign _ _ value => value.arity
  | binary left _ right => max left.arity right.arity
  | call callee arguments => max callee.arity (max arguments.length (arityOfList arguments))
  | get object _ => object.arity
  | grouping inner => inner.arity
  | literal _ => 0
  | logical left _ right => max left.arity right.arity
  | set object _ value => max object.arity value.arity
  | unary _ right => right.arity
  | var _ => 0

/-- The number of arguments of the longest call in several expressions. -/
def arityOfList : List Expr → Nat
  | [] => 0
  | e :: es => max e.arity (arityOfList es)

end

theorem nestingOfList_le {es : List Expr} {n : Nat} :
    nestingOfList es ≤ n ↔ ∀ e ∈ es, e.nesting ≤ n := by
  induction es with
  | nil => simp [nestingOfList]
  | cons e es ih => rw [nestingOfList, Nat.max_le, ih, List.forall_mem_cons]

theorem arityOfList_le {es : List Expr} {n : Nat} :
    arityOfList es ≤ n ↔ ∀ e ∈ es, e.arity ≤ n := by
  induction es with
  | nil => simp [arityOfList]
  | cons e es ih => rw [arityOfList, Nat.max_le, ih, List.forall_mem_cons]

/-- An expression that needs at most `room` levels, and whose calls are short enough. -/
structure Fits (room : Nat) (e : Expr) : Prop where
  nesting_le : e.nesting ≤ room
  arity_le : e.arity ≤ maxArguments

variable {n : Nat} {e inner right value callee object left : Expr} {name operator : Token}

theorem fits_iff : e.Fits n ↔ e.nesting ≤ n ∧ e.arity ≤ maxArguments :=
  ⟨fun h => ⟨h.1, h.2⟩, fun h => ⟨h.1, h.2⟩⟩

/-- An expression that opens a level needs room for it. -/
theorem Fits.exists_inside (h : e.Fits n) (ho : 0 < e.nesting) : ∃ m, n = m + 1 :=
  ⟨n - 1, by have := h.nesting_le; omega⟩

theorem fits_literal {v : Value} : (literal v).Fits n := by
  simp [fits_iff, nesting, arity]

theorem fits_var : (var name).Fits n := by
  simp [fits_iff, nesting, arity]

theorem fits_grouping : (grouping inner).Fits (n + 1) ↔ inner.Fits n := by
  simp [fits_iff, nesting, arity]

theorem fits_unary : (unary operator right).Fits (n + 1) ↔ right.Fits n := by
  simp [fits_iff, nesting, arity]

theorem fits_assign : (assign name operator value).Fits (n + 1) ↔ value.Fits n := by
  simp [fits_iff, nesting, arity]

theorem fits_get : (get object name).Fits n ↔ object.Fits n := by
  simp [fits_iff, nesting, arity]

theorem fits_set :
    (set object name value).Fits (n + 1) ↔ object.Fits (n + 1) ∧ value.Fits n := by
  simp only [fits_iff, nesting, arity, Nat.max_le, Nat.add_le_add_iff_right]
  exact ⟨fun ⟨⟨h₁, h₂⟩, h₃, h₄⟩ => ⟨⟨h₁, h₃⟩, h₂, h₄⟩,
    fun ⟨⟨h₁, h₃⟩, h₂, h₄⟩ => ⟨⟨h₁, h₂⟩, h₃, h₄⟩⟩

theorem fits_combine {rule : Rule} :
    (rule.combine left operator right).Fits n ↔ left.Fits n ∧ right.Fits n := by
  have h : (rule.combine left operator right).nesting = max left.nesting right.nesting
      ∧ (rule.combine left operator right).arity = max left.arity right.arity := by
    cases rule <;> exact ⟨rfl, rfl⟩
  rw [fits_iff, h.1, h.2, fits_iff, fits_iff, Nat.max_le, Nat.max_le]
  exact ⟨fun ⟨⟨h₁, h₂⟩, h₃, h₄⟩ => ⟨⟨h₁, h₃⟩, h₂, h₄⟩,
    fun ⟨⟨h₁, h₃⟩, h₂, h₄⟩ => ⟨⟨h₁, h₂⟩, h₃, h₄⟩⟩

theorem fits_call {arguments : List Expr} :
    (call callee arguments).Fits (n + 1) ↔ callee.Fits (n + 1)
      ∧ arguments.length ≤ maxArguments ∧ ∀ a ∈ arguments, a.Fits n := by
  simp only [fits_iff, nesting, arity, Nat.max_le, Nat.add_le_add_iff_right, nestingOfList_le,
    arityOfList_le]
  constructor
  · rintro ⟨⟨h₁, h₂⟩, h₃, h₄, h₅⟩
    exact ⟨⟨h₁, h₃⟩, h₄, fun a ha => ⟨h₂ a ha, h₅ a ha⟩⟩
  · rintro ⟨⟨h₁, h₃⟩, h₄, h⟩
    exact ⟨⟨h₁, fun a ha => (h a ha).1⟩, h₃, h₄, fun a ha => (h a ha).2⟩

end Expr

/-! ## What a phrase starts with, and what may go on with it -/

namespace Rule

/-- The kinds a phrase of a rule can start with. -/
def starts : Rule → List TokenKind
  | call => .identifier :: .leftParen :: TokenKind.literals
  | primary => .identifier :: .leftParen :: TokenKind.literals
  | _ => TokenKind.signs ++ .identifier :: .leftParen :: TokenKind.literals

/-- The kinds that would go on with a phrase of a rule if they followed it. -/
def continuations : Rule → List TokenKind
  | primary => []
  | call => [.leftParen, .dot]
  | unary => [.leftParen, .dot]
  | factor => [.slash, .star, .leftParen, .dot]
  | term => [.minus, .plus, .slash, .star, .leftParen, .dot]
  | comparison =>
    [.greater, .greaterEqual, .less, .lessEqual, .minus, .plus, .slash, .star, .leftParen, .dot]
  | equality =>
    [.bangEqual, .equalEqual, .greater, .greaterEqual, .less, .lessEqual, .minus, .plus, .slash,
      .star, .leftParen, .dot]
  | conjunction =>
    [.andWord, .bangEqual, .equalEqual, .greater, .greaterEqual, .less, .lessEqual, .minus, .plus,
      .slash, .star, .leftParen, .dot]
  | disjunction =>
    [.orWord, .andWord, .bangEqual, .equalEqual, .greater, .greaterEqual, .less, .lessEqual,
      .minus, .plus, .slash, .star, .leftParen, .dot]
  | assignment =>
    [.equal, .orWord, .andWord, .bangEqual, .equalEqual, .greater, .greaterEqual, .less,
      .lessEqual, .minus, .plus, .slash, .star, .leftParen, .dot]

variable {rule next : Rule} {kind : TokenKind}

theorem starts_of_tighter (h : rule.tighter? = some next) (hk : kind ∈ next.starts) :
    kind ∈ rule.starts := by
  cases rule <;> cases h <;>
    first | exact hk | exact List.mem_append_right _ hk

/-- A call does not start with a sign. -/
theorem call_start_not_sign (h : kind ∈ starts .call) : kind ∉ TokenKind.signs := by
  revert h
  cases kind <;> decide

/-- No expression starts with the token that ends a list of them. -/
theorem start_not_closing (h : kind ∈ starts .assignment) : kind ≠ .rightParen := by
  rintro rfl
  exact absurd h (by decide)

theorem continuations_of_tighter (h : rule.tighter? = some next)
    (hk : kind ∈ next.continuations) : kind ∈ rule.continuations := by
  cases rule <;> cases h <;> revert hk <;> cases kind <;> decide

theorem operators_subset_continuations (hk : kind ∈ rule.operators) :
    kind ∈ rule.continuations := by
  cases rule <;> revert hk <;> cases kind <;> decide

/-- An operator of a rule does not go on with the operands of that rule. -/
theorem operator_not_continuation (h : rule.tighter? = some next)
    (hk : kind ∈ rule.operators) : kind ∉ next.continuations := by
  cases rule <;> cases h <;> revert hk <;> cases kind <;> decide

end Rule

namespace Derives

variable {rule : Rule} {ts : List Token} {e object : Expr} {name : Token}

/-- A phrase has a first token, and its kind is one that the rule starts with. -/
theorem starts (h : Derives rule ts e) : ∃ t rest, ts = t :: rest ∧ t.kind ∈ rule.starts := by
  induction h with
  | tighter hr _ ih =>
      obtain ⟨t, rest, rfl, ht⟩ := ih
      exact ⟨t, rest, rfl, Rule.starts_of_tighter hr ht⟩
  | assign hn _ _ _ => exact ⟨_, _, rfl, by simp [hn, Rule.starts]⟩
  | set _ _ _ _ _ ih _ =>
      obtain ⟨t, rest, rfl, ht⟩ := ih
      exact ⟨t, _, rfl, List.mem_append_right _ ht⟩
  | operation _ _ _ _ ih _ =>
      obtain ⟨t, rest, rfl, ht⟩ := ih
      exact ⟨t, _, rfl, ht⟩
  | unary hs _ _ => exact ⟨_, _, rfl, List.mem_append_left _ hs⟩
  | call _ _ _ _ _ ih _ =>
      obtain ⟨t, rest, rfl, ht⟩ := ih
      exact ⟨t, _, rfl, ht⟩
  | get _ _ _ ih =>
      obtain ⟨t, rest, rfl, ht⟩ := ih
      exact ⟨t, _, rfl, ht⟩
  | grouping ho _ _ _ => exact ⟨_, _, rfl, by simp [ho, Rule.starts]⟩
  | literal hk _ => exact ⟨_, _, rfl, List.mem_cons_of_mem _ (List.mem_cons_of_mem _ hk)⟩
  | var hk => exact ⟨_, _, rfl, by simp [hk, Rule.starts]⟩

/-! ## What a variable and a property are derived from -/

/-- Only the name itself is a variable. Parentheses around it make it a grouping. -/
theorem of_var (h : Derives rule ts (.var name)) : ts = [name] ∧ name.kind = .identifier := by
  generalize he : Expr.var name = e at h
  induction h with
  | tighter _ _ ih => exact ih he
  -- the node of an operator is a binary or a logical one, by any rule
  | @operation rule => cases rule <;> cases he
  | var hk => cases he; exact ⟨rfl, hk⟩
  | _ => cases he

/-- A property is its object, a point and its name, with no parentheses around them. -/
theorem of_get (h : Derives rule ts (.get object name)) :
    ∃ os dot, ts = os ++ [dot, name] ∧ Derives .call os object ∧ dot.kind = .dot
      ∧ name.kind = .identifier := by
  generalize he : Expr.get object name = e at h
  induction h with
  | tighter _ _ ih => exact ih he
  | @operation rule => cases rule <;> cases he
  | get ho hd hk => cases he; exact ⟨_, _, rfl, ho, hd, hk⟩
  | _ => cases he

end Derives

end Lox
