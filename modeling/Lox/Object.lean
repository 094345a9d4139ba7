import Lox.Bindings
import Lox.Value

/-!
# What expressions evaluate to

An expression evaluates to the value of a literal or to one of two kinds of thing that exist only
during evaluation: a function of the host, or an instance. Both of these are known by a number.

An instance is changed through any of the references to it. So the contents of all instances are
kept apart, in a heap, where they may refer to each other in circles.
-/

namespace Lox

/-- A function that the host supplies. Its number tells it from others of the same name. -/
structure NativeFunction where
  number : Nat
  name : String
  arity : Nat
deriving DecidableEq, Repr

inductive Object where
  | value (v : Value)
  | function (f : NativeFunction)
  /-- A reference to an instance. -/
  | inst (ref : Nat)
deriving Inhabited

/-- What a reference to an instance leads to. -/
structure Instance where
  className : String
  fields : Bindings String Object
deriving Inhabited

namespace Object

def nil : Object := value .nil

def number (x : Float) : Object := value (.number x)

def boolean (b : Bool) : Object := value (.boolean b)

def string (s : String) : Object := value (.string s)

/-- Values are equal as values, functions and instances if they are the same one. -/
protected def beq : Object → Object → Bool
  | value v, value w => v == w
  | function f, function g => f.number == g.number
  | inst r, inst s => r == s
  | _, _ => false

instance : BEq Object := ⟨Object.beq⟩

/-- Functions and instances count as true. -/
def isTruthy : Object → Bool
  | value v => v.isTruthy
  | function _ => true
  | inst _ => true

def typeName : Object → String
  | value v => v.typeName
  | function _ => "function"
  | inst _ => "instance"

/-- The number an object is, if it is one. -/
def number? : Object → Option Float
  | value (.number x) => some x
  | _ => none

end Object

/-! ## The heap -/

/-- The contents of the instances made so far. -/
structure Heap where
  instances : Bindings Nat Instance

namespace Heap

def empty : Heap := ⟨[]⟩

instance : Inhabited Heap := ⟨empty⟩

/-- The contents of an instance. One that was never made has no name and no fields. -/
def read (h : Heap) (ref : Nat) : Instance := (h.instances.get? ref).getD ⟨"", []⟩

def write (h : Heap) (ref : Nat) (contents : Instance) : Heap := ⟨h.instances.put ref contents⟩

/-- The contents of a field, if the instance has it. -/
def field? (h : Heap) (ref : Nat) (name : String) : Option Object := (h.read ref).fields.get? name

/-- Sets one field of one instance, which has it from then on. -/
def setField (h : Heap) (ref : Nat) (name : String) (contents : Object) : Heap :=
  let old := h.read ref
  h.write ref { old with fields := old.fields.put name contents }

/-- A reference above all those in use. -/
def fresh (h : Heap) : Nat := h.instances.keys.foldr (fun ref next => max (ref + 1) next) 0

/-- Makes a new instance, and gives its reference. -/
def alloc (h : Heap) (contents : Instance) : Nat × Heap := (h.fresh, h.write h.fresh contents)

/-! ## What a read finds after a write -/

@[simp] theorem read_write_self (h : Heap) (ref : Nat) (contents : Instance) :
    (h.write ref contents).read ref = contents := by simp [read, write]

theorem read_write_of_ne (h : Heap) {ref other : Nat} (contents : Instance) (ne : other ≠ ref) :
    (h.write ref contents).read other = h.read other := by
  simp [read, write, Bindings.get?_put_of_ne _ _ ne]

@[simp] theorem field?_setField_self (h : Heap) (ref : Nat) (name : String) (contents : Object) :
    (h.setField ref name contents).field? ref name = some contents := by simp [field?, setField]

theorem field?_setField_of_ne (h : Heap) (ref : Nat) {name other : String} (contents : Object)
    (ne : other ≠ name) :
    (h.setField ref name contents).field? ref other = h.field? ref other := by
  simp [field?, setField, Bindings.get?_put_of_ne _ _ ne]

theorem read_setField_of_ne (h : Heap) {ref other : Nat} (name : String) (contents : Object)
    (ne : other ≠ ref) : (h.setField ref name contents).read other = h.read other :=
  read_write_of_ne h _ ne

theorem lt_fresh_of_mem_keys {h : Heap} {ref : Nat} (used : ref ∈ h.instances.keys) :
    ref < h.fresh := by
  unfold fresh
  generalize h.instances.keys = keys at used
  induction keys with
  | nil => simp at used
  | cons key keys ih =>
    rw [List.foldr_cons]
    rcases List.mem_cons.mp used with rfl | later
    · omega
    · have := ih later; omega

theorem get?_fresh (h : Heap) : h.instances.get? h.fresh = none := by
  rw [Bindings.get?_eq_none_iff]
  exact fun used => Nat.lt_irrefl _ (lt_fresh_of_mem_keys used)

end Heap

/-! ## The text of an object -/

namespace Object

/-- The text of an object: that of its value, or what kind of thing it is. -/
def text (h : Heap) : Object → String
  | value v => v.text
  | function f => "<native fn " ++ f.name ++ ">"
  | inst ref => (h.read ref).className ++ " instance"

/-- The text of a function or an instance where it is shown as a part of something else; values
have none. The fields of an instance are left out, for they may lead back to it. -/
def inspect? (h : Heap) : Object → Option String
  | value _ => none
  | function f => some ("<native fn " ++ f.name ++ ">")
  | inst ref => some ("<" ++ (h.read ref).className ++ " instance>")

end Object

end Lox
