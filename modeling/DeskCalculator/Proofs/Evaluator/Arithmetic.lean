import DeskCalculator.Expr.Basic
import DeskCalculator.Literal
import DeskCalculator.Proofs.Outcome

/-!
# Errors of numbers

Where an expression is well formed, what can fail are its operations. Their errors are of a few kinds
(`CalcError.IsArithmetic`), be it in a tree (`failsWith_eval`) or between the parts of a text.
-/

namespace DeskCalculator

namespace CalcError

/-- An error of an operation, or of a number that is too large. -/
def IsArithmetic : CalcError → Prop
  | invalid .notANumber | divisionByZero | negativeRoot _ | overflow => True
  | _ => False

theorem IsArithmetic.eq_notANumber {fault : Fault} (h : (invalid fault).IsArithmetic) :
    fault = .notANumber := by
  cases fault <;> first | rfl | exact h.elim

end CalcError

open CalcError (IsArithmetic)

theorem failsWith_checked (x : Binary64) : FailsWith IsArithmetic (checked x) := by
  cases x with
  | nan => exact failsWith_error trivial
  | infinite => exact failsWith_error trivial
  | finite => exact failsWith_ok _

theorem failsWith_apply (op : Operator) (x y : Binary64) :
    FailsWith IsArithmetic (op.apply x y) := by
  cases op with
  | add => exact failsWith_checked _
  | subtract => exact failsWith_checked _
  | multiply => exact failsWith_checked _
  | divide =>
    rw [Operator.apply]
    split
    · exact failsWith_error trivial
    · exact failsWith_checked _

theorem failsWith_squareRoot (x : Binary64) : FailsWith IsArithmetic (squareRoot x) := by
  rw [squareRoot]
  split
  · exact failsWith_error trivial
  · exact failsWith_checked _

theorem failsWith_literal? (t : Text) : FailsWith IsArithmetic (literal? t) := by
  unfold literal?
  split
  · exact failsWith_ok _
  · split
    · exact failsWith_ok _
    · exact failsWith_error trivial

theorem failsWith_eval (e : Expr) : FailsWith IsArithmetic e.eval := by
  induction e with
  | number value => exact failsWith_ok _
  | negate operand ih => exact ih.bind fun _ _ => failsWith_ok _
  | binary left op right ihl ihr =>
    exact ihl.bind fun x _ => ihr.bind fun y _ => failsWith_apply op x y
  | root operand ih => exact ih.bind fun x _ => failsWith_squareRoot x

end DeskCalculator
