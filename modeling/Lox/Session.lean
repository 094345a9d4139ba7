import Lox.Eval

/-!
# Sessions

A session evaluates one expression after the other in the same memory. In between, the host can bind
a variable, supply a function or make an instance. A failed evaluation leaves what it did up to its
error.
-/

namespace Lox

/-! ## The clock -/

/-- A clock, by what it shows when looked at: the time in seconds, or what is wrong with it. -/
structure Clock where
  shows : (moment : Nat) → Except String Float

namespace Clock

/-- A clock that shows the same time at every moment. -/
def stopped (time : Float) : Clock := ⟨fun _ => .ok time⟩

/-- A time stands for the clock that always shows it. -/
instance coeFloat : Coe Float Clock := ⟨stopped⟩

end Clock

/-! ## Functions of the host -/

namespace Host

/-- A host without functions. Numbers that no function has stand for one that gives `nil`. -/
def empty : Host := ⟨fun _ _ _ => return .nil, 0⟩

/-- The host with one more function, under its next number. -/
def supply (host : Host) (behaviour : (moment : Nat) → Behaviour) : Host where
  behaviour := fun moment number =>
    if number = host.next then behaviour moment else host.behaviour moment number
  next := host.next + 1

/-- The function `clock`: what the clock shows at the moment. -/
def clock (c : Clock) (moment : Nat) : Behaviour := fun _ =>
  match c.shows moment with
  | .ok time => return .number time
  | .error problem => throw (.native ("clock: " ++ problem))

theorem clock_of_ok {c : Clock} {moment : Nat} {time : Float} (h : c.shows moment = .ok time)
    (arguments : List Object) (heap : Heap) :
    clock c moment arguments heap = .ok (.number time) heap := by
  unfold clock
  rw [h]
  rfl

theorem clock_of_error {c : Clock} {moment : Nat} {problem : String}
    (h : c.shows moment = .error problem) (arguments : List Object) (heap : Heap) :
    clock c moment arguments heap = .error (.native ("clock: " ++ problem)) heap := by
  unfold clock
  rw [h]
  rfl

/-- The function `str`: the text of its argument. -/
def str : Behaviour := fun arguments => do
  return .string ((arguments.head?.map (·.text (← get))).getD "")

end Host

/-! ## Evaluations that follow each other -/

/-- Evaluations that follow each other, with their host. -/
structure Session where
  host : Host
  memory : Memory

namespace Session

/-- A session without variables. -/
def empty : Session := ⟨Host.empty, ⟨Environment.empty, Heap.empty, 0⟩⟩

/-- Binds a variable, whether or not it was bound. -/
def define (s : Session) (name : String) (object : Object) : Session :=
  { s with memory := { s.memory with globals := s.memory.globals.define name object } }

/-- Supplies a function and binds a variable to it. The function is a new one even if another has
its name. -/
def supply (s : Session) (name : String) (arity : Nat) (behaviour : (moment : Nat) → Behaviour) :
    Session :=
  { s with host := s.host.supply behaviour }.define name (.function ⟨s.host.next, name, arity⟩)

/-- Supplies a function that does the same at every moment. -/
def defineNative (s : Session) (name : String) (arity : Nat) (behaviour : Behaviour) : Session :=
  s.supply name arity fun _ => behaviour

/-- Makes an instance, and gives a reference to it. -/
def makeInstance (s : Session) (contents : Instance) : Object × Session :=
  let (ref, heap) := s.memory.heap.alloc contents
  (.inst ref, { s with memory := { s.memory with heap } })

/-- A session with the functions that are always there. -/
def start (clock : Clock) : Session :=
  (empty.supply "clock" 0 (Host.clock clock)).defineNative "str" 1 Host.str

/-- What holds of the two functions, and where there is none, holds of all that such a session can
run. -/
theorem start_forall (P : Behaviour → Prop) {clock : Clock}
    (hclock : ∀ moment, P (Host.clock clock moment)) (hstr : P Host.str)
    (hnone : P fun _ => return .nil) (moment number : Nat) :
    P ((start clock).host.behaviour moment number) := by
  show P (if number = 1 then Host.str else if number = 0 then Host.clock clock moment else _)
  split
  · exact hstr
  · split
    · exact hclock moment
    · exact hnone

/-- Evaluates an expression in the memory of the session. -/
def evaluate (s : Session) (e : Expr) : Except RuntimeError Object × Session :=
  match Eval.expr s.host e s.memory with
  | .ok object memory => (.ok object, { s with memory })
  | .error error memory => (.error error, { s with memory })

/-- The text of an object of the session. -/
def textOf (s : Session) (object : Object) : String := object.text s.memory.heap

end Session

end Lox
