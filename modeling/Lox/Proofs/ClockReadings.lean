import Lox.Command
import Lox.Proofs.Dependence
import Lox.Proofs.FunctionsHeld

/-!
# When a command looks at the clock

What a command prints may be the time, so a second run prints something else. On what does it
depend? On what the clock shows when it is looked at, and on nothing else of the clock: `LooksAt`
are the moments at which evaluation runs `clock`, and with any other clock that shows the same at
these moments the command prints the same.

Most texts never look at the clock. Only the variable `clock` is bound to the function, so that an
expression without this variable cannot come to call it. And a command that has come to its end has
not looked any further than to the number of functions that it has run, so it is enough to know a
clock up to there.
-/

namespace Lox

/-- The function `clock` that is there from the start. -/
def NativeFunction.clock : NativeFunction := ⟨0, "clock", 0⟩

namespace Session

variable {c c' : Clock} {e : Expr}

/-- The function `clock` is run at this moment when the expression is evaluated. -/
def LooksAt (s : Session) (e : Expr) (moment : Nat) : Prop :=
  ∃ f objects m, .runs f objects m ∈ Observed.log s.host e s.memory
    ∧ f.number = NativeFunction.clock.number ∧ m.moment = moment

/-- Of the functions that are always there, only `clock` depends on the clock. -/
theorem start_behaviour_eq {moment number : Nat}
    (h : number = NativeFunction.clock.number → c'.shows moment = c.shows moment) :
    (start c').host.behaviour moment number = (start c).host.behaviour moment number := by
  show (if number = 1 then Host.str else if number = 0 then Host.clock c' moment else _)
    = if number = 1 then Host.str else if number = 0 then Host.clock c moment else _
  by_cases hnumber : number = 0
  · unfold Host.clock
    rw [h hnumber]
  · rw [if_neg hnumber, if_neg hnumber]

/-- **An evaluation depends on what the clock shows when it is looked at**, and on nothing else of
the clock. -/
theorem expr_eq_of_shows
    (h : ∀ moment, (start c).LooksAt e moment → c'.shows moment = c.shows moment) :
    Eval.expr (start c').host e (start c').memory
      = Eval.expr (start c).host e (start c).memory := by
  obtain ⟨hrecord, _⟩ :=
    Observed.log_record (start c).host (start c').host e (start c).memory
  refine hrecord.same fun f objects m hruns => ?_
  rw [start_behaviour_eq fun hnumber => h m.moment ⟨f, objects, m, hruns, hnumber, rfl⟩]

/-- Nothing but the variable `clock` holds the function. -/
theorem start_only (c : Clock) :
    (start c).memory.Only (· ≠ "clock") (·.number ≠ NativeFunction.clock.number) := by
  refine ⟨fun name object hname hfound => ?_, nofun⟩
  have hglobals : (start c).memory.globals
      = (Environment.empty.define "clock" (.function .clock)).define "str"
        (.function ⟨1, "str", 1⟩) := rfl
  rw [hglobals, Environment.find?_define, Environment.find?_define, if_neg hname] at hfound
  split at hfound
  · cases hfound
    exact Object.only_function (by decide)
  · cases hfound

/-- **An expression that does not name the variable `clock` never looks at the clock.** -/
theorem not_looksAt_of_not_reports (h : ¬e.Reports "clock") (moment : Nat) :
    ¬(start c).LooksAt e moment := by
  rintro ⟨f, objects, m, hruns, hnumber, _⟩
  have hnames : ∀ name, .var name ∈ e.nodes → name.lexeme ≠ "clock" := by
    intro name hnode hname
    exact h (hname ▸ Expr.reports_of_mem_nodes hnode rfl)
  have hhost : (start c).host.Only (·.number ≠ NativeFunction.clock.number) :=
    (Host.empty_only.supply (Host.clock_only c)).supply fun _ => Host.str_only
  exact (Observed.only_after hhost (start_only c) hnames).seen f objects m hruns hnumber

/-- When an evaluation is over, so are the moments at which it has looked at the clock. -/
theorem lt_moment_of_looksAt {s : Session} {moment : Nat} (h : s.LooksAt e moment) :
    moment < (s.evaluate e).2.memory.moment := by
  obtain ⟨f, objects, m, hruns, _, rfl⟩ := h
  rw [s.evaluate_eq]
  exact (Observed.past_kept s.host e.nodes).log nofun f objects m hruns

end Session

namespace Command

variable {c c' : Clock} {command : Command} {text : String}

/-- The command evaluates the expression of the text, and looks at the clock at this moment. -/
def LooksAt (command : Command) (c : Clock) (text : String) (moment : Nat) : Prop :=
  command = eval ∧ ∃ e, parse text = .ok e ∧ (Session.start c).LooksAt e moment

/-- What the command prints is the text of the object, in the memory that the evaluation leaves. -/
theorem run_eval {e : Expr} {step : EStateM.Result RuntimeError Memory Object}
    (h : parse text = .ok e)
    (hstep : Eval.expr (Session.start c).host e (Session.start c).memory = step) :
    run c eval text = ((Step.outcome step).mapError CommandError.ofEval).map fun object =>
      [object.text (Step.after step).heap] := by
  unfold run expression
  rw [h]
  dsimp only [Except.mapError, bind, Except.bind]
  rw [Session.evaluate_eq, hstep]
  cases step <;> rfl

/-- **Clocks that show the same where it counts make no difference to a command.** -/
theorem run_eq_of_shows
    (h : ∀ moment, command.LooksAt c text moment → c'.shows moment = c.shows moment) :
    command.run c' text = command.run c text := by
  cases command with
  | eval =>
      cases hparse : parse text with
      | error error =>
          unfold run expression
          rw [hparse]
          rfl
      | ok e =>
          have hlooks : ∀ moment, (Session.start c).LooksAt e moment →
              c'.shows moment = c.shows moment :=
            fun moment hlooks => h moment ⟨rfl, e, hparse, hlooks⟩
          rw [run_eval hparse (Session.expr_eq_of_shows hlooks), run_eval hparse rfl]
  | _ => rfl

/-- A command looks at the clock only if its text names the variable `clock`. -/
theorem not_looksAt (h : command = eval → ∀ e, parse text = .ok e → ¬e.Reports "clock")
    (moment : Nat) : ¬command.LooksAt c text moment := by
  rintro ⟨heval, e, hparse, hlooks⟩
  exact Session.not_looksAt_of_not_reports (h heval e hparse) moment hlooks

/-- **It is enough to know a clock at the moments of a command.** -/
theorem run_eq_of_moments
    (h : ∀ moment < command.moments c text, c'.shows moment = c.shows moment) :
    command.run c' text = command.run c text := by
  refine run_eq_of_shows fun moment hlooks => h moment ?_
  obtain ⟨rfl, e, hparse, hlooks⟩ := hlooks
  unfold moments
  rw [hparse]
  exact Session.lt_moment_of_looksAt hlooks

end Command

end Lox
