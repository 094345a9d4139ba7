import Lox.CommandLine
import Std.Time.DateTime.Timestamp

/-!
# The program

This file reads what a request needs and prints what it leaves behind. All else is settled in
`Lox.CommandLine`.
-/

namespace Lox.CommandLine

/-- What the clock shows now: the seconds since the start of 1970, with their fraction. -/
def readClock : IO (Except String Float) := do
  let now ← Std.Time.Timestamp.now
  let nanoseconds := now.toNanosecondsSinceUnixEpoch.val
  if nanoseconds < 0 then return .error "second time provided was later than self"
  return .ok (Float.ofInt nanoseconds / 1000000000.0)

/-- A clock that shows these readings one after the other. -/
def clockOf (readings : List (Except String Float)) : Clock :=
  ⟨fun moment => readings.getD moment (.error "no reading")⟩

/-- A clock with a reading for every moment of a command. It is looked at when the command has come
to a moment without a reading, and the command then starts again with one reading more. -/
def takeReadings (command : Command) (source : String) :
    (more : Nat) → List (Except String Float) → IO Clock
  | 0, readings => return clockOf readings
  | more + 1, readings => do
    if command.moments (clockOf readings) source ≤ readings.length then return clockOf readings
    takeReadings command source more (readings ++ [← readClock])

/-- The bytes of the standard input, unless a request has no use for them or nothing is piped. -/
def readInput (request : Request) : IO (Option ByteArray) := do
  if request.source.isSome then return none
  let stdin ← IO.getStdin
  if ← stdin.isTty then return none
  return some (← stdin.readBinToEnd)

/-- What a request leaves behind, with its standard input and the clock read if need be. -/
def answer (request : Request) : IO Outcome := do
  let input ← readInput request
  match request.readSource input with
  | .ok (some source) =>
    -- every call has a parenthesis of its own, so there are no more calls than characters
    let clock ← takeReadings request.command source source.length []
    return request.run clock input
  | _ => return request.run (clockOf []) input

/-- What arguments leave behind. -/
def outcome (arguments : List String) : IO Outcome := do
  match parse arguments with
  | .ok request => answer request
  | .error refusal => return Outcome.ofRefusal refusal

end Lox.CommandLine

def main (arguments : List String) : IO UInt32 := do
  let outcome ← Lox.CommandLine.outcome arguments
  (← IO.getStdout).putStr outcome.output
  (← IO.getStderr).putStr outcome.errors
  return outcome.code.toUInt32
