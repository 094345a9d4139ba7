import Lox.Eval
import Lox.Reference

/-!
# An evaluation that is observed

Which variables does an evaluation use, in which order are the parts of an expression evaluated, and
with what are functions of the host run? An evaluation gives one object and leaves one memory, so it
does not tell. It is set out once more here, with a list beside the memory.

There are three kinds of event: the evaluation of an expression begins, a variable is used, a
function is run. Each of them happens just before the step that it announces, so that it happens
also if the step fails. What is written down of an event, if anything is, is up to an observer,
`note`: `some` writes down every event, and `Event.use?` the uses of variables and nothing else.

Nothing else is different. `Lox.Observed.expr` makes the steps of `Lox.Eval.expr` in the same order,
and the two are compared where the list is put to use.
-/

namespace Lox

/-- One use of a variable during an evaluation. -/
structure Use where
  name : String
  line : Nat
  access : Access
deriving DecidableEq, Repr

/-- The use a reference stands for. -/
def Reference.use (r : Reference) : Use := ⟨r.name, r.line, r.access⟩

/-- Something that happens in an evaluation, and the memory in which it happens. -/
inductive Event where
  | begins (e : Expr) (m : Memory)
  | uses (use : Use) (m : Memory)
  | runs (f : NativeFunction) (arguments : List Object) (m : Memory)

/-- The use of a variable, if an event is one. -/
def Event.use? : Event → Option Use
  | uses use _ => some use
  | _ => none

/-- A step of an evaluation that is observed. -/
abbrev Observed (ν : Type) := EStateM RuntimeError (Memory × List ν)

namespace Observed

variable {α ν : Type}

/-- What came out of a step, with a list of notes beside its memory. -/
def noting (notes : List ν) :
    EStateM.Result RuntimeError Memory α → EStateM.Result RuntimeError (Memory × List ν) α
  | .ok a m => .ok a (m, notes)
  | .error error m => .error error (m, notes)

/-- A step in which nothing happens. -/
def plain (step : Eval α) : Observed ν α := fun s => noting s.2 (step s.1)

variable (note : Event → Option ν)

/-- A step that an event announces. -/
def noted (event : Memory → Event) (observed : Observed ν α) : Observed ν α := fun s =>
  observed (s.1, s.2 ++ (note (event s.1)).toList)

/-- A step that uses one variable. -/
def access (access : Access) (name : Token) (step : Eval α) : Observed ν α :=
  noted note (.uses ⟨name.lexeme, name.line, access⟩) (plain step)

/-- Calls an object. Only a function that is run makes an event. -/
def call (host : Host) (line : Nat) (callee : Object) (arguments : List Object) :
    Observed ν Object :=
  match callee with
  | .function f =>
    if arguments.length = f.arity then
      noted note (.runs f arguments) (plain (Eval.run host f arguments))
    else throw (.arityMismatch f.arity arguments.length line)
  | other => throw (.notCallable other.typeName line)

mutual

/-- Evaluates an expression, and notes what happens. -/
def expr (host : Host) : Expr → Observed ν Object
  | .assign target operator value => noted note (.begins (.assign target operator value)) do
    let object ← expr host value
    access note .write target (Eval.assignVariable target object)
    return object
  | .binary left operator right => noted note (.begins (.binary left operator right)) do
    let first ← expr host left
    let second ← expr host right
    plain (MonadExcept.ofExcept (Eval.binary operator first second))
  | .call callee arguments => noted note (.begins (.call callee arguments)) do
    let function ← expr host callee
    let objects ← exprs host arguments
    call note host (callee.line?.getD 0) function objects
  | .get object name => noted note (.begins (.get object name)) do
    let object ← expr host object
    plain (Eval.getProperty object name)
  | .grouping inner => noted note (.begins (.grouping inner)) (expr host inner)
  | .literal value => noted note (.begins (.literal value)) (return .value value)
  | .logical left operator right => noted note (.begins (.logical left operator right)) do
    let first ← expr host left
    if ← plain (MonadExcept.ofExcept (Eval.settles operator first)) then return first
    else expr host right
  | .set object name value => noted note (.begins (.set object name value)) do
    match ← expr host object with
    | .inst ref =>
      let contents ← expr host value
      plain (modify fun m => { m with heap := m.heap.setField ref name.lexeme contents })
      return contents
    | _ => throw (.noFields name.line)
  | .unary operator right => noted note (.begins (.unary operator right)) do
    let operand ← expr host right
    plain (MonadExcept.ofExcept (Eval.unary operator operand))
  | .var name => noted note (.begins (.var name)) (access note .read name (Eval.readVariable name))

/-- Evaluates several expressions, from left to right. -/
def exprs (host : Host) : List Expr → Observed ν (List Object)
  | [] => return []
  | e :: es => do
    let object ← expr host e
    return object :: (← exprs host es)

end

/-! ## Events that an observer passes over -/

section

variable {note}

theorem noted_of_none {event : Memory → Event} (h : ∀ m, note (event m) = none)
    (observed : Observed ν α) : noted note event observed = observed := by
  funext s
  unfold noted
  rw [h, Option.toList_none, List.append_nil]

end

end Observed

end Lox
