import DeskCalculator.Batch
import DeskCalculator.Session.Basic

/-!
# Running a session

A session runs over the lines of its input up to a line that quits it or that is no text. Each line
is answered with what it writes; a prompt asks for each line, and ends with a line break of its own.
-/

namespace DeskCalculator

/-- The bytes of the lines of an input. A line ends with a line feed, which a carriage return may
precede; the last line may lack it. -/
def inputLines (bytes : List UInt8) : List (List UInt8) :=
  let pieces := bytes.splitOnP (· == 0x0a)
  let withoutReturn (line : List UInt8) :=
    if line.getLast? = some 0x0d then line.dropLast else line
  pieces.dropLast.map withoutReturn ++ pieces.getLast?.toList.filter (!·.isEmpty)

/-- The text of some bytes, if they are valid UTF-8. -/
def textOfBytes? (bytes : List UInt8) : Option Text :=
  (String.fromUTF8? ⟨bytes.toArray⟩).map String.toList

/-- How a session goes on after a line. -/
inductive Continuation where
  | goOn
  | stop
  | failed (f : Failure)
  deriving DecidableEq

namespace Session

/-- Takes the bytes of a line. -/
def feed (s : Session) (time : Nat) (bytes : List UInt8) : Continuation × Written × Session :=
  match textOfBytes? bytes with
  | none => (.failed .unreadableInput, .nothing, s)
  | some line =>
    match s.execute time line with
    | (.output t, s) => (.goOn, .outLine t, s)
    | (.error message, s) => (.goOn, .errLine (s.printer.error message), s)
    | (.silent, s) => (.goOn, .nothing, s)
    | (.quit, s) => (.stop, .nothing, s)

/-- What the prompt writes before a line. -/
def promptText (prompt : Bool) : Written := ⟨if prompt then ['>', ' '] else [], []⟩

/-- What the prompt writes at the end. -/
def promptEnd (prompt : Bool) : Written := ⟨if prompt then ['\n'] else [], []⟩

/-- What a run of a session comes to. -/
structure Run where
  /-- The number of lines that were read, if all of them were texts. -/
  lines : Except Failure Nat
  written : Written
  session : Session

/-- A run with something that is written in front. -/
def Run.behind (w : Written) (r : Run) : Run := { r with written := w.append r.written }

/-- What becomes of a run that has asked for a line. -/
inductive Turn where
  /-- It is over. -/
  | over (r : Run)
  /-- It has written something, and asks for another line when `count` of them are read. -/
  | goesOn (written : Written) (count : Nat) (s : Session)

/-- What is left of a run at the end of its input. -/
def leave (s : Session) (prompt : Bool) (count : Nat) : Run := ⟨.ok count, promptEnd prompt, s⟩

/-- Goes on with the next line, if there is one, behind `count` others. -/
def turn (s : Session) (prompt : Bool) (count time : Nat) : Option (List UInt8) → Turn
  | none => .over (s.leave prompt count)
  | some line =>
    match s.feed time line with
    | (.failed f, w, s) => .over ⟨.error f, w, s⟩
    | (.stop, w, s) => .over ((s.leave prompt (count + 1)).behind w)
    | (.goOn, w, s) => .goesOn w (count + 1) s

/-- Runs over lines, of which `count` others came before. The clock tells the time of each line. -/
def runLines (s : Session) (prompt : Bool) (clock : Nat → Nat) (count : Nat) :
    List (List UInt8) → Run
  | [] => (s.leave prompt count).behind (promptText prompt)
  | line :: lines =>
    match s.turn prompt count (clock 0) (some line) with
    | .over r => r.behind (promptText prompt)
    | .goesOn w count s =>
      (s.runLines prompt (fun n => clock (n + 1)) count lines).behind ((promptText prompt).append w)

/-- Runs a session over an input. -/
def runTimed (s : Session) (prompt : Bool) (clock : Nat → Nat) (bytes : List UInt8) : Run :=
  s.runLines prompt clock 0 (inputLines bytes)

/-- Runs a session over an input at one time. -/
def run (s : Session) (prompt : Bool) (time : Nat) (bytes : List UInt8) : Run :=
  s.runTimed prompt (fun _ => time) bytes

end Session

end DeskCalculator
