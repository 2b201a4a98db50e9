import DeskCalculator.Printer
import DeskCalculator.Session.Command
import DeskCalculator.Settings

/-!
# Sessions

A session is a calculator that is driven line by line. A line that starts with a colon is a command.
Any other line is evaluated: one that starts with an operator which cannot be a sign goes on with
the value that is there, and all others start afresh; a minus is a sign, so that such a line is
fresh.
-/

namespace DeskCalculator

/-- What a line of a session comes to. -/
inductive Reply where
  | output (t : Text)
  | error (message : Text)
  | silent
  | quit
  deriving DecidableEq

/-- A session. -/
structure Session where
  calculator : Calculator
  printer : Printer

namespace Session

/-- The session that a run starts with. -/
def new (settings : Settings) (printer : Printer) : Session := ⟨settings.calculator, printer⟩

/-- Whether a line goes on with the value that is there. -/
def continuesValue (line : Text) : Bool :=
  line.head?.any fun c => c == '+' || c == '*' || c == '/' || c == '×' || c == '÷'

/-- The session with another calculator, which shows its display. -/
def showDisplay (s : Session) (c : Calculator) : Reply × Session :=
  (.output c.display, { s with calculator := c })

/-- The session with another calculator, which shows its memory. -/
def showMemory (s : Session) (c : Calculator) : Reply × Session :=
  (.output (s.printer.note ("M = ".toList ++ c.memory.general)), { s with calculator := c })

/-- Performs a command. -/
def perform (s : Session) (command : Command) : Reply × Session :=
  match command with
  | .memoryAdd => s.showMemory s.calculator.memoryAdd
  | .memorySubtract => s.showMemory s.calculator.memorySubtract
  | .memoryRecall => s.showDisplay s.calculator.memoryRecall
  | .memoryClear => s.showMemory s.calculator.memoryClear
  | .negate => s.showDisplay s.calculator.toggleSign
  | .percent =>
    match s.calculator.percentage with
    | (.ok _, c) => s.showDisplay c
    | (.error e, c) => (.error e.message, { s with calculator := c })
  | .backspace => s.showDisplay s.calculator.backspace
  | .clear => s.showDisplay s.calculator.clear
  | .history false =>
    match s.calculator.history.lines with
    | [] => (.output (s.printer.note "(no history)".toList), s)
    | lines => (.output (['\n'].intercalate lines), s)
  | .history true => (.output s.calculator.history.toJson.render, s)
  | .help => (.output Command.helpText, s)
  | .quit => (.quit, s)

/-- Evaluates the input at a time. -/
def calculate (s : Session) (time : Nat) : Reply × Session :=
  match s.calculator.calculate time with
  | (.ok (some x), c) => (.output (s.printer.value x), { s with calculator := c })
  | (.ok none, c) => s.showDisplay c
  | (.error e, c) => (.error e.message, { s with calculator := c })

/-- Takes a line at a time; blanks around the line do not count. -/
def execute (s : Session) (time : Nat) (line : Text) : Reply × Session :=
  let line := Text.trim line
  match line with
  | [] => (.silent, s)
  | ':' :: _ =>
    match Command.ofText line with
    | .ok command => s.perform command
    | .error f => (.error f.message, s)
  | _ =>
    let c := if continuesValue line then s.calculator.append line else s.calculator.setInput line
    { s with calculator := c }.calculate time

end Session

end DeskCalculator
