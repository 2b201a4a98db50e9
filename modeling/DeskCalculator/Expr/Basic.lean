import DeskCalculator.Operation

/-!
# Expressions

The tree of an expression and its value. Operands are evaluated from the left, and the first error
ends the evaluation.
-/

namespace DeskCalculator

/-- An expression. -/
inductive Expr where
  | number (value : Binary64)
  | negate (operand : Expr)
  | binary (left : Expr) (op : Operator) (right : Expr)
  | root (operand : Expr)
  deriving DecidableEq

namespace Expr

/-- The value of an expression. -/
def eval : Expr → Outcome Binary64
  | number value => .ok value
  | negate operand => do return (← operand.eval).neg
  | binary left op right => do
    let x ← left.eval
    let y ← right.eval
    op.apply x y
  | root operand => do squareRoot (← operand.eval)

end Expr

end DeskCalculator
