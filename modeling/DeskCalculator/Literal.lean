import DeskCalculator.Error

/-!
# Decimal literals

A literal is an optional sign and a run of digits with at most one point among, before or behind
them; at least one digit is there. `literal?` reads a text that is wholly a literal, and a literal
with no finite value overflows.
-/

namespace DeskCalculator

/-- A literal with its sign and its exact value. -/
structure Literal where
  negative : Bool
  decimal : Decimal
  deriving DecidableEq

namespace Literal

/-- A digit or the decimal point. -/
def isNumeral (c : Char) : Bool := c.isDigit || c == '.'

/-- Whether a text is a literal without a sign. -/
def isUnsigned (t : Text) : Bool :=
  t.all isNumeral && t.any Char.isDigit && t.count '.' ≤ 1

/-- The exact value of a literal without a sign. -/
def unsignedValue (t : Text) : Decimal where
  coefficient := Nat.ofDigitChars 10 (t.filter Char.isDigit) 0
  exponent := -((t.dropWhile (· != '.')).drop 1).length

/-- The sign of a text, `true` for a minus, and the text behind it. -/
def splitSign : Text → Bool × Text
  | '-' :: t => (true, t)
  | '+' :: t => (false, t)
  | t => (false, t)

/-- Reads a text that is wholly a literal. -/
def ofText? (t : Text) : Option Literal :=
  let (negative, body) := splitSign t
  if isUnsigned body then some ⟨negative, unsignedValue body⟩ else none

/-- The number next to the exact value. -/
def value (l : Literal) : Binary64 := l.decimal.toBinary64 l.negative

end Literal

/-- The value of a text that is wholly a literal, and nothing for any other text. -/
def literal? (t : Text) : Outcome (Option Binary64) :=
  match Literal.ofText? t with
  | none => .ok none
  | some l => if l.value.isFinite then .ok (some l.value) else .error .overflow

theorem literal?_eq_ok_none_iff {t : Text} : literal? t = .ok none ↔ Literal.ofText? t = none := by
  unfold literal?
  split
  · simp_all
  · split <;> simp_all

theorem isFinite_of_literal? {t : Text} {x : Binary64} (h : literal? t = .ok (some x)) :
    x.isFinite = true := by
  unfold literal? at h
  split at h
  · simp at h
  · split at h
    · simp_all
    · simp at h

end DeskCalculator
