import DeskCalculator.Arguments.Invocation
import DeskCalculator.Session.Run

/-!
# The program

The program reads its command line and either is finished at once (`Plan.finished`), with what it
writes and an exit status, or goes on with a session. The status is 0 for success, 1 for a failed
run and 2 for a command line that cannot be read.
-/

namespace DeskCalculator

namespace Arguments

namespace Halt

/-- The exit status; asking for help or for the version is no error. -/
def status : Halt → Nat
  | help _ | version _ => 0
  | _ => 2

/-- The name of a level with that of the program. -/
def fullName (join : Text) : Level → Text
  | .program => Level.program.name
  | level => Level.program.name ++ join ++ level.name

/-- The version of the program. -/
def versionText (level : Level) : Text := fullName ['-'] level ++ " 0.3.0".toList

/-- How a level is used. -/
def usage (level : Level) : Text :=
  "Usage: ".toList ++ fullName [' '] level ++
    match level with
    | .program => " [OPTIONS] <COMMAND>".toList
    | .batch => " [OPTIONS] <EXPRESSIONS>...".toList
    | .session => " [OPTIONS]".toList

/-- What is wrong with the command line. -/
def message : Halt → Text
  | help level => usage level
  | version level => versionText level
  | nothingGiven => usage .program
  | missingCommand => "a command is required".toList
  | missingExpressions => "an expression is required".toList
  | unknownCommand word => "unrecognized command ".toList ++ Token.quoted word
  | unknownArgument word => "unexpected argument ".toList ++ Token.quoted word
  | missingValue option => "a value is required for ".toList ++ Token.quoted option
  | invalidValue option value | invalidNumber option value =>
    "invalid value ".toList ++ Token.quoted value ++ " for ".toList ++ Token.quoted option
  | needlessValue option value =>
    "unexpected value ".toList ++ Token.quoted value ++ " for ".toList ++ Token.quoted option
  | repeated option => Token.quoted option ++ " is given more than once".toList

/-- What the program writes. -/
def written (h : Halt) : Written :=
  match h with
  | help _ | version _ => .outLine h.message
  | nothingGiven => .errLine h.message
  | _ => .errLine ("error: ".toList ++ h.message)

end Halt

end Arguments

namespace Program

/-- What surrounds a run. -/
structure Surroundings where
  environment : Arguments.Environment
  /-- Whether the input comes from a terminal. -/
  inputTerminal : Bool
  /-- Whether the output goes to a terminal. -/
  outputTerminal : Bool

/-- How a run goes on after its command line is read. -/
inductive Plan where
  | finished (status : Nat) (written : Written)
  | session (s : Session) (prompt : Bool)

/-- The report of a run that failed. -/
def report (f : Failure) : Written := .errLine ("Error: ".toList ++ f.message)

/-- The exit status of a run and what it writes at last. -/
def exit {α : Type} : Except Failure α → Nat × Written
  | .ok _ => (0, .nothing)
  | .error f => (1, report f)

/-- The plan for a command line. -/
def plan (surroundings : Surroundings) (words : List Text) : Plan :=
  match Arguments.parse surroundings.environment words with
  | .error h => .finished h.status h.written
  | .ok ⟨settings, task⟩ =>
    let printer : Printer := ⟨settings.color.isColored surroundings.outputTerminal⟩
    match task with
    | .batch expressions format =>
      let (summary, written) := settings.runBatch format printer expressions
      let (status, last) := exit summary.result
      .finished status (written.append last)
    | .session noPrompt =>
      .session (.new settings printer)
        (!noPrompt && !settings.verbosity.isQuiet && surroundings.inputTerminal)

/-- Runs the program over an input: its exit status and what it writes. -/
def run (surroundings : Surroundings) (words : List Text) (time : Nat) (input : List UInt8) :
    Nat × Written :=
  match plan surroundings words with
  | .finished status written => (status, written)
  | .session s prompt =>
    let run := s.run prompt time input
    let (status, last) := exit run.lines
    (status, run.written.append last)

end Program

end DeskCalculator
