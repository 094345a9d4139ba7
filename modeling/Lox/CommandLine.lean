import Lox.Command

/-!
# The command line

This file is about what a list of arguments asks for, and what is printed for it.

Arguments are read from left to right. Those in front of `--` that start with a hyphen are options,
where a lone hyphen is none. Short options may share a hyphen, and the value of an option may follow
it at once, behind an equals sign, or as the next argument. The first argument that makes no sense,
or the first that asks for help, settles the matter.
-/

namespace Lox

namespace CommandLine

/-! ## Options -/

inductive Flag where
  | verbose
  | json
  | pretty
  | global
  | help
  | version
deriving DecidableEq, Repr

namespace Flag

def short : Flag → Char
  | verbose => 'v'
  | json => 'j'
  | pretty => 'p'
  | global => 'g'
  | help => 'h'
  | version => 'V'

def long : Flag → String
  | verbose => "verbose"
  | json => "json"
  | pretty => "pretty"
  | global => "global"
  | help => "help"
  | version => "version"

/-- Whether a value belongs to the option. Options with a value may be repeated, others not. -/
def takesValue (f : Flag) : Bool := f == global

end Flag

/-- The commands by name. -/
inductive Name where
  | tokens
  | ast
  | resolve
  | eval
deriving DecidableEq, Repr

namespace Name

def ofString? : String → Option Name
  | "tokens" => some tokens
  | "ast" => some ast
  | "resolve" => some resolve
  | "eval" => some eval
  | _ => none

/-- The options that may follow the name of a command. -/
def flags : Name → List Flag
  | tokens => [.verbose, .help]
  | ast => [.json, .pretty, .verbose, .help]
  | resolve => [.global, .verbose, .help]
  | eval => [.verbose, .help]

end Name

/-- The options that may stand in front of the name of a command. -/
def leadingFlags : List Flag := [.verbose, .help, .version]

/-! ## What may be asked for -/

/-- Why arguments make no sense. -/
inductive Misuse where
  | missingCommand
  | unknownCommand (name : String)
  | unknownOption (text : String)
  | unexpectedValue (flag : Flag)
  | missingValue (flag : Flag)
  | repeated (flag : Flag)
  /-- A second source. -/
  | unexpectedArgument (text : String)
  | prettyWithoutJson
deriving DecidableEq, Repr

/-- A command to run, and its source if it is among the arguments. -/
structure Request where
  command : Command
  source : Option String
deriving DecidableEq, Repr

/-- Why no command is run. -/
inductive Refusal where
  | help
  | version
  | misuse (reason : Misuse)
deriving DecidableEq, Repr

/-! ## Arguments as pieces -/

/-- A part of the arguments with a meaning of its own. -/
inductive Piece where
  | flag (f : Flag)
  | option (f : Flag) (value : String)
  | operand (text : String)
  | wrong (reason : Misuse)

/-- The pieces behind one hyphen, and the option that still waits for its value. -/
def shortPieces (known : List Flag) : List Char → List Piece × Option Flag
  | [] => ([], none)
  | c :: rest =>
    match known.find? (·.short == c) with
    | none => ([.wrong (.unknownOption ("-" ++ c.toString))], none)
    | some f =>
      if f.takesValue then
        match rest with
        | [] => ([], some f)
        | '=' :: value => ([.option f (String.ofList value)], none)
        | value => ([.option f (String.ofList value)], none)
      else
        let (later, waiting) := shortPieces known rest
        (.flag f :: later, waiting)

/-- The piece behind two hyphens, or the option that still waits for its value. -/
def longPieces (known : List Flag) (text : List Char) : List Piece × Option Flag :=
  let name := String.ofList (text.takeWhile (· != '='))
  match known.find? (·.long == name), text.dropWhile (· != '=') with
  | none, _ => ([.wrong (.unknownOption ("--" ++ name))], none)
  | some f, [] => if f.takesValue then ([], some f) else ([.flag f], none)
  | some f, _ :: value =>
    if f.takesValue then ([.option f (String.ofList value)], none)
    else ([.wrong (.unexpectedValue f)], none)

/-- The pieces of one argument in front of `--`. -/
def pieces (known : List Flag) (argument : String) : List Piece × Option Flag :=
  match argument.toList with
  | '-' :: '-' :: name => longPieces known name
  | '-' :: c :: rest => shortPieces known (c :: rest)
  | _ => ([.operand argument], none)

/-- Whether an argument is no option. -/
def isOperand (argument : String) : Bool :=
  match argument.toList with
  | '-' :: _ :: _ => false
  | _ => true

/-- The pieces of all arguments, the first of which may be the value an option waits for. -/
def allPieces (known : List Flag) : (waiting : Option Flag) → List String → List Piece
  | none, [] => []
  | some f, [] => [.wrong (.missingValue f)]
  | some f, argument :: later =>
    if isOperand argument then .option f argument :: allPieces known none later
    else [.wrong (.missingValue f)]
  | none, argument :: later =>
    if argument = "--" then later.map .operand
    else
      let (here, waiting) := pieces known argument
      here ++ allPieces known waiting later

/-! ## What the pieces ask for -/

/-- What the arguments have said so far. -/
structure Settings where
  flags : List Flag
  globals : List String
  source : Option String

def Settings.none : Settings := ⟨[], [], .none⟩

/-- The settings after one more piece. -/
def Settings.add (s : Settings) : Piece → Except Refusal Settings
  | .flag .help => .error .help
  | .flag .version => .error .version
  | .flag f =>
    if f ∈ s.flags then .error (.misuse (.repeated f)) else .ok { s with flags := f :: s.flags }
  | .option _ value => .ok { s with globals := s.globals ++ [value] }
  | .operand text =>
    if s.source.isSome then .error (.misuse (.unexpectedArgument text))
    else .ok { s with source := some text }
  | .wrong reason => .error (.misuse reason)

/-- The command that a name and the settings after it stand for. -/
def commandOf (name : Name) (s : Settings) : Except Refusal Command :=
  match name with
  | .tokens => .ok .tokens
  | .ast =>
    let json := decide (.json ∈ s.flags)
    let pretty := decide (.pretty ∈ s.flags)
    if pretty && !json then .error (.misuse .prettyWithoutJson) else .ok (.ast json pretty)
  | .resolve => .ok (.resolve s.globals)
  | .eval => .ok .eval

/-- What the arguments after the name of a command ask for. -/
def parseCommand (name : Name) (arguments : List String) : Except Refusal Request := do
  let s ← (allPieces name.flags none arguments).foldlM Settings.add Settings.none
  return ⟨← commandOf name s, s.source⟩

/-- What the arguments after the word `help` ask for: help, on one command or on all. -/
def parseHelp : List String → Refusal
  | [] => .help
  | [name] =>
    if name = "help" || (Name.ofString? name).isSome then .help
    else .misuse (.unknownCommand name)
  | _ :: extra :: _ => .misuse (.unknownCommand extra)

/-- What arguments ask for, if those before them have said `s`. -/
def parseAfter (s : Settings) : List String → Except Refusal Request
  | [] => .error (.misuse .missingCommand)
  | argument :: later =>
    match Name.ofString? argument with
    | some name => parseCommand name later
    | none =>
      if argument = "help" then .error (parseHelp later)
      else if isOperand argument then .error (.misuse (.unknownCommand argument))
      else do
        let s ← (pieces leadingFlags argument).1.foldlM Settings.add s
        parseAfter s later

/-- What a list of arguments asks for. -/
def parse (arguments : List String) : Except Refusal Request := parseAfter Settings.none arguments

/-! ## What is printed -/

/-- What a run of the program leaves behind: its exit code, and what it printed. -/
structure Outcome where
  code : UInt8
  output : String
  errors : String
deriving DecidableEq, Repr

def versionLine : String := "lox 0.1.0"

namespace Outcome

/-- Each line is followed by a line end. -/
def ofLines (lines : List String) : Outcome := ⟨0, String.join (lines.map (· ++ "\n")), ""⟩

def ofError (error : CommandError) : Outcome := ⟨1, "", error.message ++ "\n"⟩

/-- The words in which help is given and misuse is explained are not settled here. -/
def ofRefusal : Refusal → Outcome
  | .help => ⟨0, "", ""⟩
  | .version => ofLines [versionLine]
  | .misuse _ => ⟨2, "", ""⟩

end Outcome

/-- The source of a request: the one among the arguments, or else the bytes of the standard input,
if there is one to read. -/
def Request.readSource (r : Request) (input : Option ByteArray) :
    Except CommandError (Option String) :=
  match r.source, input with
  | some source, _ => .ok (some source)
  | none, none => .ok none
  | none, some bytes =>
    match String.fromUTF8? bytes with
    | some source => .ok (some source)
    | none => .error .notUtf8

/-- What a request leaves behind. -/
def Request.run (clock : Clock) (r : Request) (input : Option ByteArray) : Outcome :=
  match (do r.command.execute clock (← r.readSource input)) with
  | .ok lines => .ofLines lines
  | .error error => .ofError error

/-- What the program leaves behind, given its arguments and its standard input. -/
def run (clock : Clock) (arguments : List String) (input : Option ByteArray) : Outcome :=
  match parse arguments with
  | .ok request => request.run clock input
  | .error refusal => .ofRefusal refusal

end CommandLine

end Lox
