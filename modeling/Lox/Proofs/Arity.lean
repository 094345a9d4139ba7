import Lox.Proofs.Frame
import Lox.Proofs.FunctionsHeld

/-!
# Functions are run with as many arguments as they take

A function of the host may count on the number of its arguments, as `str` does, which looks at the
first one without a check. Can it count on that in every session? The host binds variables, supplies
functions and changes instances between evaluations. It has the functions as objects then, but there
is one thing it must not do: pass off `str`, which is not its own, as a function of another arity.
`Becomes f` is what a session can come to by all other steps.

`Offers f behaviour` is the invariant of these steps: the session has the function, with that
behaviour at every moment, and no object in it passes for the function without being it. So the
function is run as what it was supplied as, and then what precedes any run (`Observed.Prepared`)
tells its arguments.
-/

namespace Lox

namespace NativeFunction

/-- The function `str` that is there from the start. -/
def str : NativeFunction := ⟨1, "str", 1⟩

/-- The second function does not pass for the first one without being it. What it passes for is told
by its number, which is what tells the functions of a host apart. -/
def Genuine (f g : NativeFunction) : Prop := g.number = f.number → g = f

theorem genuine_self (f : NativeFunction) : f.Genuine f := fun _ => rfl

theorem genuine_of_number_ne {f g : NativeFunction} (h : g.number ≠ f.number) : f.Genuine g :=
  fun hnumber => absurd hnumber h

end NativeFunction

variable {f : NativeFunction} {behaviour : (moment : Nat) → Behaviour}

namespace Host

theorem behaviour_supply_of_lt {host : Host} {moment number : Nat} (h : number < host.next) :
    (host.supply behaviour).behaviour moment number = host.behaviour moment number :=
  if_neg (Nat.ne_of_lt h)

theorem behaviour_supply_next (host : Host) (moment : Nat) :
    (host.supply behaviour).behaviour moment host.next = behaviour moment := if_pos rfl

end Host

namespace Session

/-! ## What a session offers -/

/-- The session has the function, with that behaviour, and nothing in it passes for the function
without being it. -/
structure Offers (s : Session) (f : NativeFunction) (behaviour : (moment : Nat) → Behaviour) :
    Prop where
  supplied : f.number < s.host.next
  behaviour : ∀ moment, s.host.behaviour moment f.number = behaviour moment
  host : s.host.Only f.Genuine
  memory : s.memory.Only (fun _ => True) f.Genuine

/-- What a session can become while the host makes nothing that passes for the function. It may do
with the instances what it likes, since it shares them, and time may pass. -/
inductive Becomes (f : NativeFunction) (s : Session) : Session → Prop where
  | refl : Becomes f s s
  | define {s' : Session} {name : String} {object : Object} : Becomes f s s' →
      object.Only f.Genuine → Becomes f s (s'.define name object)
  | supply {s' : Session} {name : String} {arity : Nat} {behaviour : (moment : Nat) → Behaviour} :
      Becomes f s s' → (∀ moment, (behaviour moment).Only f.Genuine) →
      Becomes f s (s'.supply name arity behaviour)
  | change {s' : Session} {heap : Heap} {moment : Nat} : Becomes f s s' → heap.Only f.Genuine →
      Becomes f s { s' with memory := { s'.memory with heap, moment } }
  | evaluate {s' : Session} {e : Expr} : Becomes f s s' → Becomes f s (s'.evaluate e).2

variable {s s' : Session}

theorem Offers.define (h : s.Offers f behaviour) (name : String) {object : Object}
    (hobject : object.Only f.Genuine) : (s.define name object).Offers f behaviour :=
  ⟨h.supplied, h.behaviour, h.host, h.memory.globals.define name hobject, h.memory.heap⟩

/-- A function that is supplied gets a number of its own. -/
theorem Offers.supply (h : s.Offers f behaviour) (name : String) (arity : Nat)
    {other : (moment : Nat) → Behaviour} (hother : ∀ moment, (other moment).Only f.Genuine) :
    (s.supply name arity other).Offers f behaviour := by
  have hnumber : s.host.next ≠ f.number := (Nat.ne_of_lt h.supplied).symm
  have hobject : (Object.function ⟨s.host.next, name, arity⟩).Only f.Genuine :=
    Object.only_function (NativeFunction.genuine_of_number_ne hnumber)
  refine ⟨Nat.lt_succ_of_lt h.supplied, fun moment => ?_, h.host.supply hother,
    h.memory.globals.define name hobject, h.memory.heap⟩
  exact (Host.behaviour_supply_of_lt h.supplied).trans (h.behaviour moment)

theorem Offers.evaluate (h : s.Offers f behaviour) (e : Expr) :
    (s.evaluate e).2.Offers f behaviour := by
  have hafter := Observed.only_after h.host h.memory (e := e) fun _ _ => trivial
  rw [s.evaluate_eq]
  exact ⟨h.supplied, h.behaviour, h.host, hafter.memory⟩

/-- **A function is offered for good**, whatever becomes of the session. -/
theorem Offers.becomes (h : s.Offers f behaviour) (hs : s.Becomes f s') :
    s'.Offers f behaviour := by
  induction hs with
  | refl => exact h
  | define _ hobject ih => exact ih.define _ hobject
  | supply _ hbehaviour ih => exact ih.supply _ _ hbehaviour
  | change _ hheap ih => exact ⟨ih.supplied, ih.behaviour, ih.host, ih.memory.globals, hheap⟩
  | evaluate _ ih => exact ih.evaluate _

/-- To make an instance is a change of the instances. -/
theorem Becomes.makeInstance (h : s.Becomes f s') (hs : s.Offers f behaviour) {contents : Instance}
    (hcontents : ∀ name object, contents.fields.get? name = some object →
      object.Only f.Genuine) : s.Becomes f (s'.makeInstance contents).2 :=
  h.change ((hs.becomes h).memory.heap.alloc hcontents)

/-- A function is offered from when it is supplied, if nothing passed for it before. -/
theorem offers_supply {name : String} {arity : Nat}
    (hbehaviour : ∀ moment,
      (behaviour moment).Only (NativeFunction.Genuine ⟨s.host.next, name, arity⟩))
    (hhost : s.host.Only (NativeFunction.Genuine ⟨s.host.next, name, arity⟩))
    (hmemory : s.memory.Only (fun _ => True) (NativeFunction.Genuine ⟨s.host.next, name, arity⟩)) :
    (s.supply name arity behaviour).Offers ⟨s.host.next, name, arity⟩ behaviour :=
  ⟨Nat.lt_succ_self _, Host.behaviour_supply_next s.host, hhost.supply hbehaviour,
    hmemory.globals.define name (Object.only_function (NativeFunction.genuine_self _)),
    hmemory.heap⟩

theorem offers_str (clock : Clock) : (start clock).Offers .str fun _ => Host.str := by
  have hclock : (Object.function ⟨0, "clock", 0⟩).Only NativeFunction.str.Genuine :=
    Object.only_function (NativeFunction.genuine_of_number_ne (by decide))
  have hempty : Environment.empty.Only (fun _ => True) NativeFunction.str.Genuine := nofun
  exact offers_supply (fun _ => Host.str_only) (Host.empty_only.supply (Host.clock_only clock))
    ⟨hempty.define "clock" hclock, nofun⟩

/-- **A function is run as what it was supplied as**: with its behaviour, and with as many arguments
as it takes. -/
theorem Offers.runs (h : s.Offers f behaviour) {e : Expr} {g : NativeFunction}
    {objects : List Object} {m : Memory}
    (hruns : .runs g objects m ∈ Observed.log s.host e s.memory) (hnumber : g.number = f.number) :
    g = f ∧ (∀ moment, s.host.behaviour moment g.number = behaviour moment)
      ∧ objects.length = f.arity := by
  have hafter := Observed.only_after h.host h.memory (e := e) fun _ _ => trivial
  obtain rfl : g = f := hafter.seen g objects m hruns hnumber
  -- the number of its arguments is known from the call that it is prepared by
  obtain ⟨earlier, later, hlog⟩ := List.append_of_mem hruns
  obtain ⟨hrecord, _⟩ := Observed.log_record s.host s.host e s.memory
  obtain ⟨_, _, _, _, _, _, _, _, _, harity⟩ := hrecord.prepared earlier g objects m later hlog
  exact ⟨rfl, h.behaviour, harity⟩

end Session

open Lox.Observed (log Agree Prepared Answered)

/--
**Calls respect arity.**

What happens in an evaluation is noted in order by an observed one, which comes to the same, and
another host that does the same where a function was run makes no difference. Wherever a function is
run, it is directly behind the beginning of a call, the callee, and then the arguments, evaluated
once each from left to right, every one in the memory the one before it left; their objects are what
the function is given, and they are as many as it takes. Wherever a call has come to its callee and
its arguments, the function is run at once, or else the call is rejected: nothing is run behind them
any more, the evaluation fails, and the session has the memory that the last argument left.

So a function that a session offers is run as what it was supplied as, in whatever the session
becomes by evaluations and by what a host may do, and however its object is passed on in between. In
particular `str` has its argument.
-/
theorem calls_respect_arity (s : Session) (e : Expr) :
    let seen := log s.host e s.memory
    Observed.expr some s.host e (s.memory, []) = Observed.noting seen (Eval.expr s.host e s.memory)
      ∧ (∃ later, seen = .begins e s.memory :: later)
      ∧ (∀ host', Agree s.host host' seen →
          Eval.expr host' e s.memory = Eval.expr s.host e s.memory)
      ∧ (∀ earlier f objects m later, seen = earlier ++ .runs f objects m :: later →
          Prepared s.host f objects m earlier)
      ∧ (∀ earlier callee arguments m later,
          seen = earlier ++ .begins (.call callee arguments) m :: later →
          Answered s.host callee arguments m
            (fun error m' => s.evaluate e = (.error error, { s with memory := m' })) later)
      ∧ (∀ f behaviour s₀, Session.Offers s₀ f behaviour → s₀.Becomes f s → ∀ g objects m,
          .runs g objects m ∈ seen → g.number = f.number →
            g = f ∧ (∀ moment, s.host.behaviour moment g.number = behaviour moment)
              ∧ objects.length = f.arity)
      ∧ ∀ clock, (Session.start clock).Becomes .str s → ∀ f objects m,
          .runs f objects m ∈ seen → f.number = NativeFunction.str.number →
            f = .str ∧ ∃ object, objects = [object]
              ∧ s.host.behaviour m.moment f.number objects m.heap
                = .ok (.string (object.text m.heap)) m.heap := by
  intro seen
  obtain ⟨hrecord, hbegins⟩ := Observed.log_record s.host s.host e s.memory
  refine ⟨hrecord.erases [], hbegins, fun host' hagree => ?_,
    fun earlier f objects m later hseen => ?_, fun earlier callee arguments m later hseen => ?_,
    fun f behaviour s₀ hoffers hs g objects m hruns hnumber => ?_,
    fun clock hs f objects m hruns hnumber => ?_⟩
  · exact (Observed.log_record s.host host' e s.memory).1.same hagree
  · exact hrecord.prepared earlier f objects m later hseen
  · refine (hrecord.answered earlier callee arguments m later hseen).imp fun error m' hfails => ?_
    rw [s.evaluate_eq, hfails]
    rfl
  · exact (hoffers.becomes hs).runs hruns hnumber
  · obtain ⟨rfl, hbehaviour, harity⟩ :=
      ((Session.offers_str clock).becomes hs).runs hruns hnumber
    obtain ⟨object, rfl⟩ := List.length_eq_one_iff.mp harity
    refine ⟨rfl, object, rfl, ?_⟩
    rw [hbehaviour]
    rfl

/-- `first(box.text, nil)` is `str`, which went there by way of a variable. Called with
`done = true` it is run, and called with `done = true` twice it is not. -/
theorem calls_respect_arity_copied :
    let word (name : String) : Token := ⟨.identifier, name, none, 1⟩
    let equals : Token := ⟨.equal, "=", none, 1⟩
    let first : Behaviour := fun arguments => return arguments.head?.getD .nil
    let bound := (((Session.start (.stopped 0)).define "text" .nil).evaluate
      (.assign (word "text") equals (.var (word "str")))).2
    let made := bound.makeInstance ⟨"Box", []⟩
    let stored := ((made.2.define "box" made.1).evaluate
      (.set (.var (word "box")) (word "text") (.var (word "text")))).2
    let s := (stored.defineNative "first" 2 first).define "done" .nil
    let copy : Expr := .call (.var (word "first"))
      [.get (.var (word "box")) (word "text"), .literal .nil]
    let done : Expr := .assign (word "done") equals (.literal (.boolean true))
    (Session.start (.stopped 0)).Becomes .str s
      ∧ (∃ m, .runs .str [.boolean true] m ∈ log s.host (.call copy [done]) s.memory)
      ∧ (∃ globals, globals.find? "done" = some (.boolean true)
        ∧ s.evaluate (.call copy [done, done])
          = (.error (.arityMismatch 1 2 1), { s with memory := ⟨globals, s.memory.heap, 1⟩ }))
      ∧ ∀ e f objects m, .runs f objects m ∈ log s.host e s.memory →
        f.number = NativeFunction.str.number → f = .str ∧ ∃ object, objects = [object] := by
  intro word equals first bound made stored s copy done
  have hfirst : ∀ moment : Nat, first.Only NativeFunction.str.Genuine := by
    intro _ arguments harguments
    refine .pure ?_
    cases arguments with
    | nil => exact Object.only_value _
    | cons object later => exact harguments object (List.mem_cons_self ..)
  have hfields : ∀ name object, (Instance.fields ⟨"Box", []⟩).get? name = some object →
      object.Only NativeFunction.str.Genuine := nofun
  have hbound : (Session.start (.stopped 0)).Becomes .str bound :=
    (Session.Becomes.refl.define (Object.only_value _)).evaluate
  have hmade := hbound.makeInstance (Session.offers_str (.stopped 0)) hfields
  have hstored : (Session.start (.stopped 0)).Becomes .str stored :=
    (hmade.define (Object.only_inst _)).evaluate
  have hs : (Session.start (.stopped 0)).Becomes .str s :=
    (hstored.supply hfirst).define (Object.only_value _)
  have hcopy : Eval.expr s.host copy s.memory
      = .ok (.function .str) { s.memory with moment := 1 } := rfl
  -- the first assignment and the second one come to the same, each in its own memory
  let globals := s.memory.globals.define "done" (.boolean true)
  have honce : Eval.expr s.host done { s.memory with moment := 1 }
      = .ok (.boolean true) ⟨globals, s.memory.heap, 1⟩ := rfl
  have htwice : Eval.expr s.host done ⟨globals, s.memory.heap, 1⟩
      = .ok (.boolean true) ⟨globals.define "done" (.boolean true), s.memory.heap, 1⟩ := rfl
  refine ⟨hs, ?_, ?_, fun e f objects m hruns hnumber => ?_⟩
  · obtain ⟨_, ⟨later, hlog⟩, _, _, hanswered, _, _⟩ := calls_respect_arity s (.call copy [done])
    obtain ⟨rest, rfl, hsettled⟩ :=
      hanswered [] copy [done] s.memory later hlog _ _ _ _ _ hcopy (.cons honce .nil)
    cases hsettled with
    | run hf _ =>
        cases hf
        refine ⟨⟨globals, s.memory.heap, 1⟩, ?_⟩
        rw [hlog]
        exact List.mem_cons_of_mem _ (List.mem_append_right _ (List.mem_cons_self ..))
    | rejected hrejected _ =>
        cases hrejected with
        | notCallable hcallee => exact absurd rfl (hcallee .str)
        | arityMismatch harity => exact absurd rfl harity
  · obtain ⟨_, ⟨later, hlog⟩, _, _, hanswered, _, _⟩ :=
      calls_respect_arity s (.call copy [done, done])
    obtain ⟨rest, _, hsettled⟩ := hanswered [] copy [done, done] s.memory later hlog _ _ _ _ _ hcopy
      (.cons honce (.cons htwice .nil))
    cases hsettled with
    | run hf harity =>
        cases hf
        cases harity
    | rejected hrejected hfails =>
        cases hrejected with
        | notCallable hcallee => exact absurd rfl (hcallee .str)
        | arityMismatch _ => exact ⟨_, Bindings.get?_put_self .., hfails⟩
  · obtain ⟨_, _, _, _, _, _, hstr⟩ := calls_respect_arity s e
    obtain ⟨rfl, object, hobjects, _⟩ := hstr (.stopped 0) hs f objects m hruns hnumber
    exact ⟨rfl, object, hobjects⟩

end Lox
