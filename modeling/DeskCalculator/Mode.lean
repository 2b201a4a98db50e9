import DeskCalculator.Text.Basic

/-!
# Evaluation modes

The standard mode parses an expression by precedence. The legacy mode reduces its text: innermost
groups are replaced by their values, and a text without groups is split at an operator.
-/

namespace DeskCalculator

/-- How an expression is evaluated. -/
inductive Mode where
  | standard
  | legacy
  deriving DecidableEq

namespace Mode

/-- The name of a mode. -/
def name : Mode → Text
  | standard => "standard".toList
  | legacy => "legacy".toList

/-- The mode of a name. -/
def ofName? (t : Text) : Option Mode := [standard, legacy].find? (·.name = t)

theorem ofName?_name (m : Mode) : ofName? m.name = some m := by cases m <;> decide

end Mode

end DeskCalculator
