import Lox.Expr.Json
import Lox.Expr.Parser
import Lox.Expr.Render
import Lox.Reference
import Lox.Session
import Lox.Text.Column

/-!
# Commands

There are four things that can be done with a source text. This file says which lines each of them
prints. A command either prints all its lines or fails with one error and prints nothing.
-/

namespace Lox

/-- What to do with a source text. -/
inductive Command where
  /-- List the tokens. -/
  | tokens
  /-- Print the expression as a prefix list or as JSON. -/
  | ast (json pretty : Bool)
  /-- List the references to variables. If globals are given there may be no others. -/
  | resolve (globals : List String)
  | eval
deriving DecidableEq, Repr

/-- Why a command prints nothing. -/
inductive CommandError where
  | ofLex (error : LexError)
  | ofParse (error : SyntaxError)
  | ofResolve (error : Undeclared)
  | ofEval (error : RuntimeError)
  /-- The bytes of the source are no UTF-8. -/
  | notUtf8
  /-- There is no source. -/
  | noSource

namespace CommandError

def message : CommandError → String
  | ofLex error => error.message
  | ofParse error => error.message
  | ofResolve error => error.message
  | ofEval error => error.message
  | notUtf8 => "IO error: stream did not contain valid UTF-8"
  | noSource => "No source provided. Pass an expression or pipe it to stdin."

end CommandError

namespace Command

/-- A token in a list: its line, its kind and its lexeme. -/
def tokenLine (t : Token) : String :=
  Text.alignRight 4 (toString t.line) ++ " " ++ Text.alignLeft 14 t.kind.label ++ " " ++ t.lexeme

/-- A reference in a list: its line, what is done, and to which variable. -/
def referenceLine (r : Reference) : String :=
  let access := match r.access with
    | .read => "read"
    | .write => "write"
  Text.alignRight 4 (toString r.line) ++ " " ++ access ++ " " ++ r.name
    ++ (if r.conditional then " (conditional)" else "")

/-- The expression of a source text. -/
def expression (source : String) : Except CommandError Expr :=
  (parse source).mapError .ofParse

/-- The names that may be referred to if these are given. -/
def scope (globals : List String) : Scope := if globals.isEmpty then .anything else .only globals

/-- The lines a command prints for a source text. -/
def run (clock : Clock) (command : Command) (source : String) :
    Except CommandError (List String) := do
  match command with
  | tokens =>
    let tokens ← (tokenize source).mapError .ofLex
    return tokens.map tokenLine
  | ast json pretty =>
    let e ← expression source
    return [if json then (if pretty then e.indentedJsonText else e.jsonText) else e.render]
  | resolve globals =>
    let e ← expression source
    let (result, resolver) := (Resolver.start (scope globals)).resolve e
    result.mapError .ofResolve
    return resolver.references.map referenceLine
  | eval =>
    let e ← expression source
    let (result, session) := (Session.start clock).evaluate e
    let object ← result.mapError .ofEval
    return [session.textOf object]

/-- How many functions of the host a command runs for a source text. -/
def moments (clock : Clock) (command : Command) (source : String) : Nat :=
  match command, parse source with
  | eval, .ok e => ((Session.start clock).evaluate e).2.memory.moment
  | _, _ => 0

/-- The lines a command prints if there may be no source. -/
def execute (clock : Clock) (command : Command) (source : Option String) :
    Except CommandError (List String) :=
  match source with
  | some source => command.run clock source
  | none => .error .noSource

end Command

end Lox
