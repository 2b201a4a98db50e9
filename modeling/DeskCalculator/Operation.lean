import DeskCalculator.Literal
import DeskCalculator.Binary64.Arithmetic

/-!
# Checked operations

An operation of the calculator has a finite result or none. `checked` turns away the results that
are infinite or no number, and a division by zero and the root of a number below zero are told apart
before anything is computed.
-/

namespace DeskCalculator

/-- A result, if it is finite. -/
def checked (x : Binary64) : Outcome Binary64 :=
  match x with
  | .nan => .error (.invalid .notANumber)
  | .infinite _ => .error .overflow
  | .finite .. => .ok x

/-- Applies an operator to two numbers. -/
def Operator.apply (op : Operator) (x y : Binary64) : Outcome Binary64 :=
  match op with
  | add => checked (x.add y)
  | subtract => checked (x.sub y)
  | multiply => checked (x.mul y)
  | divide => if y.isZero then .error .divisionByZero else checked (x.div y)

/-- The square root of a number that is not below zero. -/
def squareRoot (x : Binary64) : Outcome Binary64 :=
  if x.isBelowZero then .error (.negativeRoot x) else checked x.sqrt

theorem isFinite_of_checked {x y : Binary64} (h : checked x = .ok y) : y.isFinite = true := by
  unfold checked at h
  split at h
  · simp at h
  · simp at h
  · simp only [Except.ok.injEq] at h
    rw [← h]
    rfl

theorem isFinite_of_apply {op : Operator} {x y z : Binary64} (h : op.apply x y = .ok z) :
    z.isFinite = true := by
  cases op with
  | add => exact isFinite_of_checked h
  | subtract => exact isFinite_of_checked h
  | multiply => exact isFinite_of_checked h
  | divide =>
    simp only [Operator.apply] at h
    split at h
    · simp at h
    · exact isFinite_of_checked h

theorem isFinite_of_squareRoot {x y : Binary64} (h : squareRoot x = .ok y) : y.isFinite = true := by
  unfold squareRoot at h
  split at h
  · simp at h
  · exact isFinite_of_checked h

end DeskCalculator
