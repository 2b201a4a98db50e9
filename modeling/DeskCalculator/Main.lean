import DeskCalculator.Program
import Std.Time.DateTime.Timestamp

/-!
# The command line program

The outer layer: it asks the system for the arguments, the environment, the clock and the lines of
the input, and writes what the program answers.
-/

namespace DeskCalculator

namespace Program

/-- The bytes up to the end of a line or of the input. -/
partial def readLine (input : IO.FS.Stream) (line : List UInt8) : IO (List UInt8) := do
  let bytes ← input.read 1
  match bytes.toList with
  | [] => return line.reverse
  | byte :: _ =>
    if byte = 0x0a then return (byte :: line).reverse else readLine input (byte :: line)

/-- Writes to both outputs. -/
def write (w : Written) : IO Unit := do
  let out ← IO.getStdout
  let err ← IO.getStderr
  out.putStr (String.ofList w.out)
  out.flush
  err.putStr (String.ofList w.err)

/-- Runs a session line by line: writes what it says, and reads what it asks for. -/
partial def converse (s : Session) (prompt : Bool) (count : Nat) : IO (Except Failure Nat) := do
  write (Session.promptText prompt)
  let bytes ← readLine (← IO.getStdin) []
  let time := (← Std.Time.Timestamp.now).toMillisecondsSinceUnixEpoch.val.toNat
  match s.turn prompt count time (inputLines bytes).head? with
  | .over r =>
    write r.written
    return r.lines
  | .goesOn written count s =>
    write written
    converse s prompt count

/-- The variables of the environment that the program looks at. -/
def readEnvironment : IO Arguments.Environment := do
  let names := (Arguments.Key.ofLevel .program).filterMap Arguments.Key.environmentName?
  names.filterMapM fun name => do
    return (← IO.getEnv (String.ofList name)).map fun value => (name, value.toList)

end Program

end DeskCalculator

open DeskCalculator in
/-- Runs the program with the arguments behind its name. -/
def main (args : List String) : IO UInt32 := do
  let surroundings : Program.Surroundings :=
    ⟨← Program.readEnvironment, ← (← IO.getStdin).isTty, ← (← IO.getStdout).isTty⟩
  match Program.plan surroundings (args.map String.toList) with
  | .finished status written =>
    Program.write written
    return status.toUInt32
  | .session s prompt =>
    let (status, last) := Program.exit (← Program.converse s prompt 0)
    Program.write last
    return status.toUInt32
