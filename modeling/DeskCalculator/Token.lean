import DeskCalculator.Operator
import DeskCalculator.Binary64.Written

/-!
# Tokens

The tokens of an expression, and how a message names them: a number by its value, all else in
quotation marks.
-/

namespace DeskCalculator

/-- A token of an expression. -/
inductive Token where
  | number (value : Binary64)
  | operator (op : Operator)
  | opening
  | closing
  | root
  deriving DecidableEq

namespace Token

/-- The word of the square root. -/
def rootWord : Text := ['s', 'q', 'r', 't']

/-- A text in quotation marks. -/
def quoted (t : Text) : Text := '\'' :: (t ++ ['\''])

/-- The token as messages name it. -/
def display : Token → Text
  | number value => value.display
  | operator op => quoted [op.symbol]
  | opening => quoted ['(']
  | closing => quoted [')']
  | root => quoted rootWord

end Token

end DeskCalculator
