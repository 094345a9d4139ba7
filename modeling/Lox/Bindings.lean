/-!
# Finite maps in the order of insertion

A finite map is a list of keys with their contents. A key keeps its place when it is bound again,
and a new one goes to the end. Nothing is ever unbound.
-/

namespace Lox

/-- Keys with their contents, each key at most once, in the order of insertion. -/
abbrev Bindings (κ α : Type) := List (κ × α)

namespace Bindings

variable {κ α : Type} [DecidableEq κ]

/-- The contents of a key. -/
def get? : Bindings κ α → κ → Option α
  | [], _ => none
  | (key, content) :: later, k => if key = k then some content else get? later k

/-- Binds a key, in its place if it has one and behind all others if not. -/
def put : Bindings κ α → κ → α → Bindings κ α
  | [], k, a => [(k, a)]
  | (key, content) :: later, k, a =>
    if key = k then (k, a) :: later else (key, content) :: put later k a

/-- Whether a key is bound. -/
def contains (b : Bindings κ α) (k : κ) : Bool := (b.get? k).isSome

/-- The bound keys. -/
def keys (b : Bindings κ α) : List κ := b.map Prod.fst

/-! ## What a look-up finds after a binding -/

@[simp] theorem get?_put_self (b : Bindings κ α) (k : κ) (a : α) :
    (b.put k a).get? k = some a := by
  fun_induction put b k a <;> simp_all [get?]

theorem get?_put_of_ne (b : Bindings κ α) {k l : κ} (a : α) (h : l ≠ k) :
    (b.put k a).get? l = b.get? l := by
  fun_induction put b k a <;> simp_all [get?, Ne.symm h]

theorem get?_put (b : Bindings κ α) (k l : κ) (a : α) :
    (b.put k a).get? l = if l = k then some a else b.get? l := by
  split
  · next h => rw [h, get?_put_self]
  · next h => exact get?_put_of_ne b a h

theorem get?_eq_none_iff (b : Bindings κ α) (k : κ) : b.get? k = none ↔ k ∉ b.keys := by
  fun_induction get? b k <;> simp_all [keys, eq_comm]

theorem contains_put (b : Bindings κ α) (k l : κ) (a : α) :
    (b.put k a).contains l = (decide (l = k) || b.contains l) := by
  by_cases h : l = k <;> simp [contains, get?_put, h]

end Bindings

end Lox
