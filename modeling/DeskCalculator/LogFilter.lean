import DeskCalculator.Settings

/-!
# The log filter

The level of the log is that of the verbosity, unless the environment names a level.
-/

namespace DeskCalculator

namespace LogFilter

/-- The names of the levels, from the least to the most that is logged. -/
def levels : List Text :=
  ["off".toList, "error".toList, "warn".toList, "info".toList, "debug".toList, "trace".toList]

/-- The level that a text names, in any case or by its place, which is written without a sign; an
empty text leaves the errors. -/
def level? (t : Text) : Option Text :=
  if t = [] then some "error".toList
  else if t.all Char.isDigit then levels[Nat.ofDigitChars 10 t 0]?
  else levels.find? (· = t.map Char.toLower)

example : level? "Info".toList = some "info".toList := by decide +kernel
example : level? "3".toList = some "info".toList := by decide +kernel
example : level? "+3".toList = none := by decide +kernel

/-- The level that is logged. -/
def level (environment : Option Text) (verbosity : Verbosity) : Text :=
  (environment.bind level?).getD verbosity.directive

end LogFilter

end DeskCalculator
