import DeskCalculator.Text.Basic

/-!
# Failures of a run

What can go wrong around the evaluations: a line of a session that is no command, input that is no
text, and a batch in which expressions fail.
-/

namespace DeskCalculator

/-- Why a run or a line of a session fails. -/
inductive Failure where
  | tooManyArguments (line : Text)
  | unknownCommand (line : Text)
  | unreadableInput
  | expressionsFailed (failed total : Nat)
  deriving DecidableEq

namespace Failure

/-- The wording of a failure. -/
def message : Failure → Text
  | tooManyArguments line => "Invalid argument: too many arguments: ".toList ++ line
  | unknownCommand line => "Invalid argument: unknown command: ".toList ++ line
  | unreadableInput => "I/O error: stream did not contain valid UTF-8".toList
  | expressionsFailed failed total =>
    Text.ofNat failed ++ " of ".toList ++ Text.ofNat total ++ " expressions failed".toList

end Failure

end DeskCalculator
