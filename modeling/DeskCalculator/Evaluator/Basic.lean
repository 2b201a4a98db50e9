import DeskCalculator.Evaluator.Spelling
import DeskCalculator.Expr.Parser
import DeskCalculator.Reduction.Basic

/-!
# The evaluator

An evaluator has a mode and limits. Before the mode comes into play a text is normalized, checked
against the limits and for matching parentheses, and a literal is answered at once
(`Evaluator.precheck`).
-/

namespace DeskCalculator

/-- What a text may hold. -/
structure Limits where
  /-- The largest number of characters. -/
  maxLength : Nat
  /-- The largest depth of nested parentheses. -/
  maxDepth : Nat
  deriving DecidableEq

namespace Limits

/-- The limits that hold if no others are set. -/
def standard : Limits := ⟨1024, 64⟩

/-- Turns away a text that is too long. -/
def checkLength (l : Limits) (t : Text) : Outcome Unit :=
  if l.maxLength < t.length then .error (.tooLong t.length l.maxLength) else .ok ()

/-- Turns away a depth that is too large. -/
def checkDepth (l : Limits) (depth : Nat) : Outcome Unit :=
  if l.maxDepth < depth then .error (.tooDeep depth l.maxDepth) else .ok ()

end Limits

/-- The value of a balanced text in a mode. -/
def Mode.evaluate (mode : Mode) (t : Text) : Outcome Binary64 :=
  match mode with
  | standard => do (← Expr.parse t).eval
  | legacy => (Reduction.ofText (Text.trim t)).eval

/-- A mode and limits. -/
structure Evaluator where
  mode : Mode
  limits : Limits
  deriving DecidableEq

namespace Evaluator

/-- Checks a normalized text: an error, or a value that needs no evaluation, or `none` for a text
that the mode evaluates. -/
def precheck (ev : Evaluator) (t : Text) : Outcome (Option Binary64) :=
  if t = [] then .ok (some .zero)
  else do
    ev.limits.checkLength t
    match ← literal? t with
    | some value => return some value
    | none =>
      match Parens.scan? t with
      | none => .error .mismatchedParentheses
      | some parens => do
        ev.limits.checkDepth parens.depth
        return none

/-- The value of a text; an empty text is zero. -/
def evaluate (ev : Evaluator) (t : Text) : Outcome Binary64 := do
  match ← ev.precheck (normalize t) with
  | some value => return value
  | none => ev.mode.evaluate (normalize t)

/-- The events of the evaluation of a text. -/
def events (ev : Evaluator) (t : Text) : List Event :=
  let steps :=
    match ev.precheck (normalize t), ev.mode with
    | .ok none, .legacy => (Reduction.ofText (Text.trim (normalize t))).events
    | _, _ => []
  let last :=
    match ev.evaluate t with
    | .ok value => .evaluated ev.mode t value
    | .error e => .failed ev.mode t e
  steps ++ [last]

end Evaluator

example : (Evaluator.mk .standard .standard).evaluate "2+3*4".toList =
    .ok (Decimal.toBinary64 false ⟨14, 0⟩) := by decide +kernel

example : (Evaluator.mk .legacy .standard).evaluate "2+3*4".toList =
    .ok (Decimal.toBinary64 false ⟨20, 0⟩) := by decide +kernel

end DeskCalculator
