import DeskCalculator.Calculator

/-!
# Settings

What a user sets for a run: how much is logged, whether colours are used, the mode, the limits of an
expression and the length of the history.
-/

namespace DeskCalculator

/-- How much a run logs. -/
inductive Verbosity where
  | quiet
  | normal
  | verbose
  | debug
  | trace
  deriving DecidableEq

namespace Verbosity

/-- The verbosity of a quiet flag and a number of verbose flags; quiet prevails. -/
def ofFlags (quiet : Bool) (count : Nat) : Verbosity :=
  if quiet then .quiet
  else
    match count with
    | 0 => .normal
    | 1 => .verbose
    | 2 => .debug
    | _ => .trace

/-- The name of a verbosity. -/
def name : Verbosity → Text
  | quiet => "Quiet".toList
  | normal => "Normal".toList
  | verbose => "Verbose".toList
  | debug => "Debug".toList
  | trace => "Trace".toList

/-- Whether only errors are logged. -/
def isQuiet (v : Verbosity) : Bool := v == quiet

/-- Whether more than warnings is logged. -/
def isVerbose (v : Verbosity) : Bool := v == verbose || v == debug || v == trace

/-- Whether evaluations are logged. -/
def isDebug (v : Verbosity) : Bool := v == debug || v == trace

/-- The least important level that is logged. -/
def directive : Verbosity → Text
  | quiet => "error".toList
  | normal => "warn".toList
  | verbose => "info".toList
  | debug => "debug".toList
  | trace => "trace".toList

end Verbosity

/-- When colours are used. -/
inductive ColorChoice where
  | always
  /-- On a terminal. -/
  | auto
  | never
  deriving DecidableEq

namespace ColorChoice

/-- The name of a choice. -/
def name : ColorChoice → Text
  | always => "Always".toList
  | auto => "Auto".toList
  | never => "Never".toList

/-- Whether colours are used on an output. -/
def isColored (choice : ColorChoice) (terminal : Bool) : Bool :=
  match choice with
  | always => true
  | auto => terminal
  | never => false

end ColorChoice

/-- The settings of a run. -/
structure Settings where
  verbosity : Verbosity
  color : ColorChoice
  mode : Mode
  limits : Limits
  /-- The largest number of entries in the history. -/
  historyLimit : Nat
  deriving DecidableEq

namespace Settings

/-- The settings of a run that sets nothing. -/
def standard : Settings := ⟨.normal, .auto, .standard, .standard, History.standardCapacity⟩

/-- The evaluator of a run. -/
def evaluator (s : Settings) : Evaluator := ⟨s.mode, s.limits⟩

/-- The calculator that a run starts with. -/
def calculator (s : Settings) : Calculator := .new s.evaluator s.historyLimit

/-- The limits for other programs. -/
def limitFields (l : Limits) : List (Text × Json) :=
  [("max_length".toList, .natural l.maxLength), ("max_depth".toList, .natural l.maxDepth)]

/-- The settings for other programs. -/
def toJson (s : Settings) : Json :=
  .object
    ([("verbosity".toList, .text s.verbosity.name), ("color".toList, .text s.color.name),
        ("mode".toList, .text s.mode.name)] ++ limitFields s.limits ++
      [("history_limit".toList, .natural s.historyLimit)])

/-- The settings of the evaluator for other programs. -/
def evaluatorJson (s : Settings) : Json :=
  .object [("mode".toList, .text s.mode.name), ("limits".toList, .object (limitFields s.limits))]

end Settings

end DeskCalculator
