import DeskCalculator.Text.Basic

/-!
# Operators

The four binary operators, their symbols, and the two orders in which they are looked at: by
precedence when tokens are parsed, and along `scanOrder` when a flat text is split.
-/

namespace DeskCalculator

/-- A binary operator. -/
inductive Operator where
  | add
  | subtract
  | multiply
  | divide
  deriving DecidableEq

namespace Operator

/-- The character that stands for an operator. -/
def symbol : Operator → Char
  | add => '+'
  | subtract => '-'
  | multiply => '*'
  | divide => '/'

/-- The operator that a character stands for. -/
def ofSymbol? : Char → Option Operator
  | '+' => some add
  | '-' => some subtract
  | '*' => some multiply
  | '/' => some divide
  | _ => none

theorem ofSymbol?_eq_some_iff {c : Char} {op : Operator} :
    ofSymbol? c = some op ↔ c = op.symbol := by
  constructor
  · intro h
    unfold ofSymbol? at h
    split at h <;> simp_all [symbol] <;> subst h <;> rfl
  · rintro rfl
    cases op <;> rfl

/-- How tightly an operator binds its operands. -/
def precedence : Operator → Nat
  | add | subtract => 1
  | multiply | divide => 2

/-- The order in which a flat text is searched for an operator to split it at. -/
def scanOrder : List Operator := [multiply, divide, add, subtract]

end Operator

end DeskCalculator
