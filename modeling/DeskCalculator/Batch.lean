import DeskCalculator.Failure
import DeskCalculator.Printer
import DeskCalculator.Settings

/-!
# Batches of expressions

A batch evaluates each of its expressions on its own and writes one line for it: as JSON to the
output, or as text, a result to the output and an error to the error output.
-/

namespace DeskCalculator

/-- How a batch writes its outcomes. -/
inductive OutputFormat where
  | text
  | json
  deriving DecidableEq

/-- What a run writes. -/
structure Written where
  /-- The text on the standard output. -/
  out : Text
  /-- The text on the error output. -/
  err : Text
  deriving DecidableEq

namespace Written

/-- Nothing. -/
def nothing : Written := ⟨[], []⟩

/-- One text after the other. -/
def append (w later : Written) : Written := ⟨w.out ++ later.out, w.err ++ later.err⟩

/-- A line on the standard output. -/
def outLine (t : Text) : Written := ⟨t ++ ['\n'], []⟩

/-- A line on the error output. -/
def errLine (t : Text) : Written := ⟨[], t ++ ['\n']⟩

end Written

/-- An expression and what it comes to. -/
structure Record where
  expression : Text
  outcome : Outcome Binary64
  deriving DecidableEq

namespace Record

/-- Evaluates an expression. -/
def of (ev : Evaluator) (expression : Text) : Record := ⟨expression, ev.evaluate expression⟩

/-- Whether the expression has no value. -/
def isFailed (r : Record) : Bool := !r.outcome.isOk

/-- The record for other programs. -/
def toJson (r : Record) : Json :=
  match r.outcome with
  | .ok x =>
    .object [("expression".toList, .text r.expression), ("result".toList, .number x),
      ("display".toList, .text x.general)]
  | .error e =>
    .object [("expression".toList, .text r.expression), ("error".toList, .text e.message)]

/-- The line of a record. -/
def written (r : Record) (format : OutputFormat) (printer : Printer) : Written :=
  match format, r.outcome with
  | .json, _ => .outLine r.toJson.render
  | .text, .ok x => .outLine (printer.value x)
  | .text, .error e => .errLine (printer.error e.message)

end Record

/-- The counts of a batch. -/
structure Summary where
  total : Nat
  failed : Nat
  deriving DecidableEq

namespace Summary

/-- Counts one more record. -/
def count (s : Summary) (r : Record) : Summary :=
  ⟨s.total + 1, if r.isFailed then s.failed + 1 else s.failed⟩

/-- The number of expressions that have a value. -/
def succeeded (s : Summary) : Nat := s.total - s.failed

/-- A batch fails if one of its expressions does. -/
def result (s : Summary) : Except Failure Unit :=
  if s.failed = 0 then .ok () else .error (.expressionsFailed s.failed s.total)

end Summary

namespace Settings

/-- Evaluates one more expression of a batch, counts it and writes its line. -/
def nextExpression (s : Settings) (format : OutputFormat) (printer : Printer)
    (done : Summary × Written) (expression : Text) : Summary × Written :=
  let record := Record.of s.evaluator expression
  (done.1.count record, done.2.append (record.written format printer))

/-- The counts and the lines of a batch. An expression that fails does not end it. -/
def runBatch (s : Settings) (format : OutputFormat) (printer : Printer) (expressions : List Text) :
    Summary × Written :=
  expressions.foldl (s.nextExpression format printer) (⟨0, 0⟩, .nothing)

end Settings

end DeskCalculator
