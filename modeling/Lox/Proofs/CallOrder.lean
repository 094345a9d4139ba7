import Lox.Proofs.Observed
import Lox.Proofs.Step

/-!
# The order in which a call does its work

What does an observed evaluation tell about calls? A call evaluates its callee, then its arguments
from left to right, each of them once and in the memory that the one before it left. Only then it is
looked at what is called, and with how many arguments. If these do not fit, the call is rejected,
which ends the whole evaluation there and then. Otherwise the function is run at once.

`Record` relates a step to the list of what happens in it, and the fields say this of each place in
the list: of a function that is run by what comes before it (`Prepared`), and of a call that is
begun by what comes behind it (`Answered`). It also says that nothing is missing from the list,
since an evaluation goes by nothing else that the functions of a host do.
-/

namespace Lox

/-! ## Calls that are rejected -/

/-- The error of a call that is rejected: what is called is no function, or one that takes another
number of arguments. -/
inductive Rejected (line : Nat) : Object → List Object → RuntimeError → Prop where
  | notCallable {callee : Object} {arguments : List Object} : (∀ f, callee ≠ .function f) →
      Rejected line callee arguments (.notCallable callee.typeName line)
  | arityMismatch {f : NativeFunction} {arguments : List Object} : arguments.length ≠ f.arity →
      Rejected line (.function f) arguments (.arityMismatch f.arity arguments.length line)

section

variable {ν : Type} {note : Event → Option ν} {host : Host} {line : Nat} {callee : Object}
  {arguments : List Object} {error : RuntimeError}

/-- A call that is not rejected is one of a function, with as many arguments as it takes. -/
theorem function_or_rejected (line : Nat) (callee : Object) (arguments : List Object) :
    (∃ f, callee = .function f ∧ arguments.length = f.arity)
      ∨ ∃ error, Rejected line callee arguments error := by
  cases callee with
  | function f =>
      by_cases harity : arguments.length = f.arity
      · exact Or.inl ⟨f, rfl, harity⟩
      · exact Or.inr ⟨_, .arityMismatch harity⟩
  | value v => exact Or.inr ⟨_, .notCallable nofun⟩
  | inst ref => exact Or.inr ⟨_, .notCallable nofun⟩

theorem Eval.call_of_rejected (h : Rejected line callee arguments error) :
    Eval.call host line callee arguments = MonadExcept.throw error := by
  cases h with
  | notCallable hcallee =>
      cases callee with
      | function f => exact absurd rfl (hcallee f)
      | _ => rfl
  | arityMismatch harity => exact if_neg harity

theorem Observed.call_of_rejected (h : Rejected line callee arguments error) :
    Observed.call note host line callee arguments = MonadExcept.throw error := by
  cases h with
  | notCallable hcallee =>
      cases callee with
      | function f => exact absurd rfl (hcallee f)
      | _ => rfl
  | arityMismatch harity => exact if_neg harity

theorem Eval.call_function {f : NativeFunction} (h : arguments.length = f.arity) :
    Eval.call host line (.function f) arguments = Eval.run host f arguments := if_pos h

theorem Observed.call_function {f : NativeFunction} (h : arguments.length = f.arity) :
    Observed.call note host line (.function f) arguments
      = noted note (.runs f arguments) (plain (Eval.run host f arguments)) := if_pos h

end

/-! ## Expressions in turn -/

namespace Observed

/-- What happens when an expression is evaluated. -/
def log (host : Host) (e : Expr) (m : Memory) : List Event :=
  (Step.after (expr some host e (m, []))).2

/-- The expressions are evaluated from left to right, once each, every one in the memory that the
one before it left, and they come to these objects. The events are those of all of them. -/
inductive InTurn (host : Host) :
    List Expr → Memory → List Event → List Object → Memory → Prop where
  | nil {m : Memory} : InTurn host [] m [] [] m
  | cons {e : Expr} {es : List Expr} {m m₁ m₂ : Memory} {object : Object} {objects : List Object}
      {events : List Event} :
      Eval.expr host e m = .ok object m₁ → InTurn host es m₁ events objects m₂ →
      InTurn host (e :: es) m (log host e m ++ events) (object :: objects) m₂

namespace InTurn

variable {host : Host} {es : List Expr} {m m₁ m₂ : Memory} {objects objects' : List Object}
  {events events' : List Event}

theorem exprs_eq_ok (h : InTurn host es m events objects m₁) :
    Eval.exprs host es m = .ok objects m₁ := by
  induction h with
  | nil => rfl
  | cons he _ ih =>
      rw [Eval.exprs]
      exact Step.bind_ok he (Step.bind_ok ih rfl)

/-- There is only one way to evaluate them. -/
theorem unique (h : InTurn host es m events objects m₁)
    (h' : InTurn host es m events' objects' m₂) :
    events = events' ∧ objects = objects' ∧ m₁ = m₂ := by
  induction h generalizing events' objects' with
  | nil =>
      cases h'
      exact ⟨rfl, rfl, rfl⟩
  | cons he _ ih =>
      cases h' with
      | cons he' hes' =>
          rw [he] at he'
          cases he'
          obtain ⟨rfl, rfl, rfl⟩ := ih hes'
          exact ⟨rfl, rfl, rfl⟩

end InTurn

/-! ## What comes before a function is run, and what behind a call that is begun -/

/-- What came last before a function was run is a call, begun in some memory, whose callee came to
the function and whose arguments came in turn to the objects it is given. -/
def Prepared (host : Host) (f : NativeFunction) (objects : List Object) (m : Memory)
    (earlier : List Event) : Prop :=
  ∃ before callee arguments m₀ m₁ events,
    earlier = before ++ .begins (.call callee arguments) m₀ :: (log host callee m₀ ++ events)
      ∧ Eval.expr host callee m₀ = .ok (.function f) m₁
      ∧ InTurn host arguments m₁ events objects m
      ∧ objects.length = f.arity

/-- What happens behind the callee and the arguments of a call: the function is run, or else the
call is rejected and nothing happens any more. The evaluation `fails` then with that error, and
leaves the memory as the arguments left it. -/
inductive Settled (line : Nat) (callee : Object) (objects : List Object) (m : Memory)
    (fails : RuntimeError → Memory → Prop) : List Event → Prop where
  | run {f : NativeFunction} {later : List Event} : callee = .function f →
      objects.length = f.arity → Settled line callee objects m fails (.runs f objects m :: later)
  | rejected {error : RuntimeError} : Rejected line callee objects error → fails error m →
      Settled line callee objects m fails []

/-- What happens behind the beginning of a call whose callee and arguments come to objects. -/
def Answered (host : Host) (callee : Expr) (arguments : List Expr) (m : Memory)
    (fails : RuntimeError → Memory → Prop) (later : List Event) : Prop :=
  ∀ object m₁ events objects m₂, Eval.expr host callee m = .ok object m₁ →
    InTurn host arguments m₁ events objects m₂ →
    ∃ rest, later = log host callee m ++ events ++ rest
      ∧ Settled (callee.line?.getD 0) object objects m₂ fails rest

section

variable {host : Host} {callee : Expr} {arguments : List Expr} {m m' : Memory}
  {fails fails' : RuntimeError → Memory → Prop} {f : NativeFunction} {objects : List Object}
  {earlier later : List Event}

theorem Prepared.append_left (h : Prepared host f objects m earlier) (before : List Event) :
    Prepared host f objects m (before ++ earlier) := by
  obtain ⟨before', callee, arguments, m₀, m₁, events, rfl, hrest⟩ := h
  exact ⟨before ++ before', callee, arguments, m₀, m₁, events, (List.append_assoc ..).symm, hrest⟩

/-- If the evaluation has not failed so far, no call is rejected so far, and more may happen. -/
theorem Answered.append (h : Answered host callee arguments m fails later)
    (hgoes : ∀ error m', ¬fails error m') (after : List Event) :
    Answered host callee arguments m fails' (later ++ after) := by
  intro object m₁ events objects m₂ hcallee harguments
  obtain ⟨rest, rfl, hsettled⟩ := h object m₁ events objects m₂ hcallee harguments
  refine ⟨rest ++ after, List.append_assoc .., ?_⟩
  cases hsettled with
  | run hf harity => exact .run hf harity
  | rejected _ hfails => exact absurd hfails (hgoes _ _)

theorem Settled.imp {line : Nat} {object : Object}
    (h : Settled line object objects m fails later)
    (himp : ∀ error m', fails error m' → fails' error m') :
    Settled line object objects m fails' later := by
  cases h with
  | run hf harity => exact .run hf harity
  | rejected hrejected hfails => exact .rejected hrejected (himp _ _ hfails)

theorem Answered.imp (h : Answered host callee arguments m fails later)
    (himp : ∀ error m', fails error m' → fails' error m') :
    Answered host callee arguments m fails' later := by
  intro object m₁ events objects m₂ hcallee harguments
  obtain ⟨rest, hlater, hsettled⟩ := h object m₁ events objects m₂ hcallee harguments
  exact ⟨rest, hlater, hsettled.imp himp⟩

end

/-! ## The record of a step -/

/-- Where one of these events is a function that is run, both hosts do the same. -/
def Agree (host host' : Host) (events : List Event) : Prop :=
  ∀ f objects m, .runs f objects m ∈ events →
    host'.behaviour m.moment f.number objects m.heap
      = host.behaviour m.moment f.number objects m.heap

/-- The events are what happens in a step that is made in the memory `m`, behind the events
`before`. Another host that does the same at these events makes the step `step'` of it. -/
structure Record {α : Type} (host host' : Host) (before : List Event) (observed : Observed Event α)
    (step step' : Eval α) (m : Memory) (events : List Event) : Prop where
  /-- The observed step does what the plain one does, and notes the events behind all others. -/
  erases : ∀ seen, observed (m, seen) = noting (seen ++ events) (step m)
  /-- No function is run without its call. -/
  prepared : ∀ earlier f objects m' later, events = earlier ++ .runs f objects m' :: later →
    Prepared host f objects m' (before ++ earlier)
  /-- A call that is rejected is the end of the step. -/
  answered : ∀ earlier callee arguments m' later,
    events = earlier ++ .begins (.call callee arguments) m' :: later →
      Answered host callee arguments m' (fun error m'' => step m = .error error m'') later
  /-- No event is missing at which another host would make a difference. -/
  same : Agree host host' events → step' m = step m

namespace Record

variable {α β : Type} {host host' : Host} {before events events' : List Event}
  {observed : Observed Event α} {step step' : Eval α} {m m₁ : Memory}

/-- An event in a list made of two stands in the first one or in the second one. -/
theorem split {xs ys earlier later : List Event} {event : Event}
    (h : xs ++ ys = earlier ++ event :: later) :
    (∃ rest, xs = earlier ++ event :: rest ∧ later = rest ++ ys)
      ∨ ∃ rest, earlier = xs ++ rest ∧ ys = rest ++ event :: later := by
  rcases List.append_eq_append_iff.mp h with ⟨rest, rfl, rfl⟩ | ⟨rest, rfl, hrest⟩
  · exact Or.inr ⟨rest, rfl, rfl⟩
  · rcases List.cons_eq_append_iff.mp hrest with ⟨rfl, rfl⟩ | ⟨rest', rfl, rfl⟩
    · exact Or.inr ⟨[], by rw [List.append_nil, List.append_nil], rfl⟩
    · exact Or.inl ⟨rest', rfl, rfl⟩

theorem single {earlier later : List Event} {event only : Event}
    (h : [only] = earlier ++ event :: later) : earlier = [] ∧ event = only := by
  rcases List.singleton_eq_append_iff.mp h with ⟨rfl, h⟩ | ⟨_, h⟩
  · exact ⟨rfl, (List.cons.inj h).1.symm⟩
  · cases h

theorem behind (h : Record host host' [] observed step step' m events) (before : List Event) :
    Record host host' before observed step step' m events :=
  ⟨h.erases, fun earlier f objects m' later hevents =>
    (h.prepared earlier f objects m' later hevents).append_left before, h.answered, h.same⟩

/-- A step in which nothing happens. -/
theorem nothing (herases : ∀ seen, observed (m, seen) = noting seen (step m))
    (hsame : step' m = step m) : Record host host' before observed step step' m [] := by
  refine ⟨fun seen => ?_, fun earlier f objects m' later h => ?_,
    fun earlier callee arguments m' later h => ?_, fun _ => hsame⟩
  · rw [List.append_nil]
    exact herases seen
  · exact absurd h (by simp)
  · exact absurd h (by simp)

/-- A step that uses a variable. -/
theorem access (access : Access) (name : Token) (step : Eval α) :
    Record host host' before (Observed.access some access name step) step step m
      [.uses ⟨name.lexeme, name.line, access⟩ m] := by
  refine ⟨fun seen => rfl, fun earlier f objects m' later h => ?_,
    fun earlier callee arguments m' later h => ?_, fun _ => rfl⟩
  · cases (single h).2
  · cases (single h).2

/-- The second step is not made. -/
theorem bind_of_error {observed' : α → Observed Event β} {next next' : α → Eval β}
    {error : RuntimeError} (h : Record host host' before observed step step' m events)
    (hstep : step m = .error error m₁) :
    Record host host' before (observed >>= observed') (step >>= next) (step' >>= next') m
      events := by
  refine ⟨fun seen => ?_, h.prepared, fun earlier callee arguments m' later hevents => ?_,
    fun hagree => ?_⟩
  · have hobserved := h.erases seen
    rw [hstep] at hobserved
    rw [Step.bind_of_error hstep]
    exact Step.bind_of_error hobserved
  · refine (h.answered earlier callee arguments m' later hevents).imp fun error' m'' hfails => ?_
    exact Step.bind_of_error hfails
  · rw [Step.bind_of_error hstep]
    exact Step.bind_of_error ((h.same hagree).trans hstep)

/-- The second step is made behind the first one. -/
theorem bind_of_ok {observed' : α → Observed Event β} {next next' : α → Eval β} {a : α}
    (h : Record host host' before observed step step' m events) (hstep : step m = .ok a m₁)
    (h' : Record host host' (before ++ events) (observed' a) (next a) (next' a) m₁ events') :
    Record host host' before (observed >>= observed') (step >>= next) (step' >>= next') m
      (events ++ events') := by
  refine ⟨fun seen => ?_, fun earlier f objects m' later hevents => ?_,
    fun earlier callee arguments m' later hevents => ?_, fun hagree => ?_⟩
  · have hobserved := h.erases seen
    rw [hstep] at hobserved
    rw [Step.bind_of_ok hstep, Step.bind_of_ok hobserved, ← List.append_assoc]
    exact h'.erases (seen ++ events)
  · rcases split hevents with ⟨rest, hfirst, _⟩ | ⟨rest, rfl, hsecond⟩
    · exact h.prepared earlier f objects m' rest hfirst
    · rw [← List.append_assoc]
      exact h'.prepared rest f objects m' later hsecond
  · rcases split hevents with ⟨rest, hfirst, rfl⟩ | ⟨rest, rfl, hsecond⟩
    · -- no call of the first step is rejected, since the second step is made
      have hanswered := h.answered earlier callee arguments m' rest hfirst
      refine hanswered.append (fun error m'' hfails => ?_) _
      rw [hstep] at hfails
      cases hfails
    · rw [Step.bind_of_ok hstep]
      exact h'.answered rest callee arguments m' later hsecond
  · have hfirst := h.same fun f objects m' hruns =>
      hagree f objects m' (List.mem_append_left _ hruns)
    have hsecond := h'.same fun f objects m' hruns =>
      hagree f objects m' (List.mem_append_right _ hruns)
    rw [Step.bind_of_ok hstep, ← hsecond]
    exact Step.bind_of_ok (hfirst.trans hstep)

/-- A step behind the beginning of an expression. If that is a call, what it is answered has to be
known. -/
theorem begins {e : Expr}
    (h : Record host host' (before ++ [.begins e m]) observed step step' m events)
    (hcall : ∀ callee arguments, e = .call callee arguments →
      Answered host callee arguments m (fun error m' => step m = .error error m') events) :
    Record host host' before (noted some (.begins e) observed) step step' m
      (.begins e m :: events) := by
  refine ⟨fun seen => ?_, fun earlier f objects m' later hevents => ?_,
    fun earlier callee arguments m' later hevents => ?_, fun hagree => ?_⟩
  · show observed (m, seen ++ [.begins e m]) = _
    rw [h.erases, List.append_assoc, List.singleton_append]
  · cases earlier with
    | nil => cases hevents
    | cons event earlier =>
        obtain ⟨hevent, hrest⟩ := List.cons.inj hevents
        have hprepared := h.prepared earlier f objects m' later hrest
        rwa [hevent, List.append_assoc, List.singleton_append] at hprepared
  · cases earlier with
    | nil =>
        obtain ⟨hevent, rfl⟩ := List.cons.inj hevents
        obtain ⟨rfl, rfl⟩ := Event.begins.inj hevent
        exact hcall callee arguments rfl
    | cons event earlier =>
        obtain ⟨_, hevents⟩ := List.cons.inj hevents
        exact h.answered earlier callee arguments m' later hevents
  · exact h.same fun f objects m' hruns => hagree f objects m' (List.mem_cons_of_mem _ hruns)

/-- A function is run behind what has to come before it. -/
theorem run {f : NativeFunction} {objects : List Object}
    (hprepared : Prepared host f objects m before) :
    Record host host' before (noted some (.runs f objects) (plain (Eval.run host f objects)))
      (Eval.run host f objects) (Eval.run host' f objects) m [.runs f objects m] := by
  refine ⟨fun seen => rfl, fun earlier f' objects' m' later hevents => ?_,
    fun earlier callee arguments m' later hevents => ?_, fun hagree => ?_⟩
  · obtain ⟨rfl, hevent⟩ := single hevents
    obtain ⟨rfl, rfl, rfl⟩ := Event.runs.inj hevent
    rwa [List.append_nil]
  · cases (single hevents).2
  · unfold Eval.run
    rw [hagree f objects m (List.mem_singleton.mpr rfl)]

/-- A call is settled by itself, if what has to come before a function was there. -/
theorem call (line : Nat) {object : Object} {objects : List Object}
    (hprepared : ∀ f, object = .function f → objects.length = f.arity →
      Prepared host f objects m before) :
    ∃ rest, Record host host' before (Observed.call some host line object objects)
        (Eval.call host line object objects) (Eval.call host' line object objects) m rest
      ∧ Settled line object objects m
        (fun error m' => Eval.call host line object objects m = .error error m') rest := by
  rcases function_or_rejected line object objects with ⟨f, rfl, harity⟩ | ⟨error, hrejected⟩
  · rw [Observed.call_function harity, Eval.call_function harity, Eval.call_function harity]
    exact ⟨_, run (hprepared f rfl harity), .run rfl harity⟩
  · rw [Observed.call_of_rejected hrejected, Eval.call_of_rejected hrejected,
      Eval.call_of_rejected hrejected]
    exact ⟨[], nothing (fun _ => rfl) rfl, .rejected hrejected rfl⟩

end Record

/-! ## Evaluations and their records -/

/-- In any memory, what happens in the step can be recorded. -/
def Recorded {α : Type} (host host' : Host) (observed : Observed Event α)
    (step step' : Eval α) : Prop :=
  ∀ m, ∃ events, Record host host' [] observed step step' m events

namespace Recorded

variable {α β : Type} {host host' : Host} {observed : Observed Event α} {step step' : Eval α}

theorem plain (step : Eval α) : Recorded host host' (Observed.plain step) step step :=
  fun _ => ⟨[], .nothing (fun _ => rfl) rfl⟩

theorem access (access : Access) (name : Token) (step : Eval α) :
    Recorded host host' (Observed.access some access name step) step step :=
  fun _ => ⟨_, .access access name step⟩

theorem pure (a : α) : Recorded host host' (Pure.pure a) (Pure.pure a) (Pure.pure a) :=
  plain (Pure.pure a)

theorem throw (error : RuntimeError) :
    Recorded host host' (MonadExcept.throw error : Observed Event α) (MonadExcept.throw error)
      (MonadExcept.throw error) := plain (MonadExcept.throw error)

theorem bind {observed' : α → Observed Event β} {next next' : α → Eval β}
    (h : Recorded host host' observed step step')
    (h' : ∀ a, Recorded host host' (observed' a) (next a) (next' a)) :
    Recorded host host' (observed >>= observed') (step >>= next) (step' >>= next') := by
  intro m
  obtain ⟨events, hfirst⟩ := h m
  cases hstep : step m with
  | error error m₁ => exact ⟨events, hfirst.bind_of_error hstep⟩
  | ok a m₁ =>
      obtain ⟨events', hsecond⟩ := h' a m₁
      exact ⟨events ++ events', hfirst.bind_of_ok hstep (hsecond.behind _)⟩

end Recorded

/-- In any memory, what happens in the step can be recorded, and first of all an
expression begins. -/
def RecordedFrom {α : Type} (host host' : Host) (e : Expr) (observed : Observed Event α)
    (step step' : Eval α) : Prop :=
  ∀ m, ∃ events, Record host host' [] observed step step' m (.begins e m :: events)

namespace RecordedFrom

variable {host host' : Host} {observed : Observed Event Object} {step step' : Eval Object}
  {e : Expr}

theorem recorded (h : RecordedFrom host host' e observed step step') :
    Recorded host host' observed step step' := by
  intro m
  obtain ⟨events, hrecord⟩ := h m
  exact ⟨_, hrecord⟩

/-- An expression that is no call only begins. -/
theorem begins (hcall : ∀ callee arguments, e ≠ .call callee arguments)
    (h : Recorded host host' observed step step') :
    RecordedFrom host host' e (noted some (.begins e) observed) step step' := by
  intro m
  obtain ⟨events, hrest⟩ := h m
  exact ⟨_, (hrest.behind _).begins fun callee arguments he => absurd he (hcall callee arguments)⟩

end RecordedFrom

theorem after_noting {α : Type} (events : List Event)
    (result : EStateM.Result RuntimeError Memory α) :
    Step.after (noting events result) = (Step.after result, events) := by
  cases result <;> rfl

/-- What happens in the evaluation of an expression is its log. -/
theorem Record.log_eq {host host' : Host} {before events : List Event} {e : Expr}
    {step step' : Eval Object} {m : Memory}
    (h : Record host host' before (expr some host e) step step' m events) :
    log host e m = events := by
  unfold log
  rw [h.erases [], after_noting]
  rfl

/-- In any memory, what happens when expressions in a row are evaluated can be recorded. Where they
come to objects, they come to them in turn. -/
def RecordedInTurn (host host' : Host) (es : List Expr) : Prop :=
  ∀ m, ∃ events,
    Record host host' [] (exprs some host es) (Eval.exprs host es) (Eval.exprs host' es) m events
      ∧ ∀ objects m', Eval.exprs host es m = .ok objects m' → InTurn host es m events objects m'

section

variable {host host' : Host} {e : Expr} {es : List Expr}

theorem RecordedInTurn.nil : RecordedInTurn host host' [] := by
  intro m
  refine ⟨[], .nothing (fun _ => rfl) rfl, fun objects m' h => ?_⟩
  cases h
  exact .nil

theorem RecordedInTurn.cons
    (he : Recorded host host' (expr some host e) (Eval.expr host e) (Eval.expr host' e))
    (hes : RecordedInTurn host host' es) : RecordedInTurn host host' (e :: es) := by
  intro m
  rw [exprs, Eval.exprs, Eval.exprs]
  obtain ⟨events, hfirst⟩ := he m
  cases hobject : Eval.expr host e m with
  | error error m₁ =>
      refine ⟨events, hfirst.bind_of_error hobject, fun objects m' h => ?_⟩
      rw [Step.bind_of_error hobject] at h
      cases h
  | ok object m₁ =>
      obtain ⟨events', hlater, hturn⟩ := hes m₁
      cases hobjects : Eval.exprs host es m₁ with
      | error error m₂ =>
          refine ⟨_, hfirst.bind_of_ok hobject ((hlater.behind _).bind_of_error hobjects),
            fun objects m' h => ?_⟩
          rw [Step.bind_of_ok hobject, Step.bind_of_error hobjects] at h
          cases h
      | ok objects m₂ =>
          -- to put the first object in front of the others is no event
          have hpure : Record host host' ([] ++ events ++ events')
              (Pure.pure (object :: objects)) (Pure.pure (object :: objects))
              (Pure.pure (object :: objects)) m₂ [] := .nothing (fun _ => rfl) rfl
          refine ⟨_, hfirst.bind_of_ok hobject ((hlater.behind _).bind_of_ok hobjects hpure),
            fun objects' m' h => ?_⟩
          rw [Step.bind_of_ok hobject, Step.bind_of_ok hobjects] at h
          cases h
          rw [List.append_nil, ← hfirst.log_eq]
          exact .cons hobject (hturn objects m₂ hobjects)

/-- A call that does not come as far as to have a callee and arguments need not be answered. -/
theorem Answered.of_stuck {callee : Expr} {arguments : List Expr} {m : Memory}
    {fails : RuntimeError → Memory → Prop} {later : List Event}
    (h : ∀ object m₁, Eval.expr host callee m = .ok object m₁ →
      ∀ objects m₂, Eval.exprs host arguments m₁ ≠ .ok objects m₂) :
    Answered host callee arguments m fails later :=
  fun object m₁ _ objects m₂ hobject hturn =>
    absurd hturn.exprs_eq_ok (h object m₁ hobject objects m₂)

/-- A call evaluates its callee and its arguments, and only then it is settled. -/
theorem call_recorded {callee : Expr} {arguments : List Expr}
    (hcallee : Recorded host host' (expr some host callee) (Eval.expr host callee)
      (Eval.expr host' callee))
    (harguments : RecordedInTurn host host' arguments) :
    RecordedFrom host host' (.call callee arguments) (expr some host (.call callee arguments))
      (Eval.expr host (.call callee arguments)) (Eval.expr host' (.call callee arguments)) := by
  intro m
  rw [expr, Eval.expr, Eval.expr]
  obtain ⟨events, hfirst⟩ := hcallee m
  cases hobject : Eval.expr host callee m with
  | error error m₁ =>
      -- there is nothing to call, so the call is not answered
      refine ⟨_, ((hfirst.behind _).bind_of_error hobject).begins fun callee' arguments' he => ?_⟩
      cases he
      refine .of_stuck fun object m₁ hok => ?_
      rw [hobject] at hok
      cases hok
  | ok object m₁ =>
      obtain ⟨events', hlater, hturn⟩ := harguments m₁
      cases hobjects : Eval.exprs host arguments m₁ with
      | error error m₂ =>
          refine ⟨_, ((hfirst.behind _).bind_of_ok hobject
            ((hlater.behind _).bind_of_error hobjects)).begins fun callee' arguments' he => ?_⟩
          cases he
          refine .of_stuck fun object' m₁' hok objects m₂' hoks => ?_
          rw [hobject] at hok
          cases hok
          rw [hobjects] at hoks
          cases hoks
      | ok objects m₂ =>
          have hturn := hturn objects m₂ hobjects
          have hlog := hfirst.log_eq
          have hprepared : ∀ f, object = .function f → objects.length = f.arity →
              Prepared host f objects m₂
                (.begins (.call callee arguments) m :: (events ++ events')) := by
            intro f hf harity
            rw [hf] at hobject
            exact ⟨[], callee, arguments, m, m₁, events', by rw [hlog, List.nil_append], hobject,
              hturn, harity⟩
          obtain ⟨rest, hcall, hsettled⟩ := Record.call (callee.line?.getD 0) hprepared
          refine ⟨_, ((hfirst.behind _).bind_of_ok hobject
            ((hlater.behind _).bind_of_ok hobjects hcall)).begins fun callee' arguments' he => ?_⟩
          cases he
          intro object' m₁' events'' objects' m₂' hok hturn'
          -- there is only one way in which callee and arguments come to objects
          rw [hobject] at hok
          cases hok
          obtain ⟨rfl, rfl, rfl⟩ := hturn.unique hturn'
          refine ⟨rest, by rw [hlog, List.append_assoc], hsettled.imp fun error m' hfails => ?_⟩
          exact (Step.bind_of_ok hobject).trans ((Step.bind_of_ok hobjects).trans hfails)

end

mutual

/-- **What happens in an evaluation can be recorded**, by induction on the expression. -/
theorem expr_recorded (host host' : Host) :
    ∀ e, RecordedFrom host host' e (expr some host e) (Eval.expr host e) (Eval.expr host' e)
  | .assign target operator value => by
      rw [expr, Eval.expr, Eval.expr]
      refine .begins nofun (.bind (expr_recorded host host' value).recorded fun object => ?_)
      exact .bind (.access .write target _) fun _ => .pure object
  | .binary left operator right => by
      rw [expr, Eval.expr, Eval.expr]
      refine .begins nofun (.bind (expr_recorded host host' left).recorded fun first => ?_)
      exact .bind (expr_recorded host host' right).recorded fun second => .plain _
  | .call callee arguments =>
      call_recorded (expr_recorded host host' callee).recorded (exprs_recorded host host' arguments)
  | .get object name => by
      rw [expr, Eval.expr, Eval.expr]
      exact .begins nofun (.bind (expr_recorded host host' object).recorded fun first => .plain _)
  | .grouping inner => by
      rw [expr, Eval.expr, Eval.expr]
      exact .begins nofun (expr_recorded host host' inner).recorded
  | .literal value => by
      rw [expr, Eval.expr, Eval.expr]
      exact .begins nofun (.pure _)
  | .logical left operator right => by
      rw [expr, Eval.expr, Eval.expr]
      refine .begins nofun (.bind (expr_recorded host host' left).recorded fun first => ?_)
      refine .bind (.plain _) fun settled => ?_
      cases settled with
      | true => exact .pure first
      | false => exact (expr_recorded host host' right).recorded
  | .set object name value => by
      rw [expr, Eval.expr, Eval.expr]
      refine .begins nofun (.bind (expr_recorded host host' object).recorded fun first => ?_)
      cases first with
      | inst ref =>
          refine .bind (expr_recorded host host' value).recorded fun contents => ?_
          exact .bind (.plain _) fun _ => .pure contents
      | _ => exact .throw _
  | .unary operator right => by
      rw [expr, Eval.expr, Eval.expr]
      exact .begins nofun (.bind (expr_recorded host host' right).recorded fun operand => .plain _)
  | .var name => by
      rw [expr, Eval.expr, Eval.expr]
      exact .begins nofun (.access .read name _)

theorem exprs_recorded (host host' : Host) : ∀ es, RecordedInTurn host host' es
  | [] => .nil
  | e :: es => .cons (expr_recorded host host' e).recorded (exprs_recorded host host' es)

end

/-- The log of an expression is the record of its evaluation, and starts with its beginning. -/
theorem log_record (host host' : Host) (e : Expr) (m : Memory) :
    Record host host' [] (expr some host e) (Eval.expr host e) (Eval.expr host' e) m (log host e m)
      ∧ ∃ later, log host e m = .begins e m :: later := by
  obtain ⟨events, hrecord⟩ := expr_recorded host host' e m
  rw [hrecord.log_eq]
  exact ⟨hrecord, events, rfl⟩

end Observed

end Lox
