import DeskCalculator.Decimal.Basic

/-!
# The shortest decimal of a magnitude

A magnitude is written with the fewest digits that read back as the same magnitude, and of the
decimals with so few digits the one nearest to it is taken.

On the grid of decimals with `count` digits only the two neighbours of the exact value have to be
tried (`neighbour?`): if any decimal of the grid reads back, so does a neighbour, since what reads
back is an interval around the value. Two neighbours that are equally near are told apart by a
`Tie`.
-/

namespace DeskCalculator

/-- Which of two equally near decimals is taken. -/
inductive Tie where
  /-- The larger one. -/
  | up
  /-- The one with an even coefficient. -/
  | toEven
  deriving DecidableEq

namespace Magnitude

/-- The coefficient of the exact value, whose last digit is worth `10 ^ -1074`. -/
def exactCoefficient (m : Magnitude) : Nat := m.units * Nat.pow 5 unitExponent

/-- The exact value. -/
def exactDecimal (m : Magnitude) : Decimal := ⟨m.exactCoefficient, -unitExponent⟩

/-- Whether a decimal is read as this magnitude. -/
def isReadFrom (m : Magnitude) (d : Decimal) : Bool := d.code == m.code

/-- The neighbour of the exact value, with its last `dropped` digits left out, that reads back. -/
def neighbour? (tie : Tie) (m : Magnitude) (exact dropped : Nat) : Option Decimal :=
  let step := Nat.pow 10 dropped
  let below : Decimal := ⟨exact / step, dropped - unitExponent⟩
  let above : Decimal := ⟨exact / step + 1, dropped - unitExponent⟩
  let rest := exact % step
  if m.isReadFrom below then
    if m.isReadFrom above &&
        (step < 2 * rest || step == 2 * rest && (tie == .up || exact / step % 2 == 1)) then
      some above
    else some below
  else if m.isReadFrom above then some above
  else none

/-- The decimal with the fewest digits that reads back, the nearest of them. No magnitude needs more
than 17 digits. -/
def shortest (tie : Tie) (m : Magnitude) : Decimal :=
  if m.code = 0 then ⟨0, 0⟩
  else
    let exact := m.exactCoefficient
    let length := (Nat.toDigits 10 exact).length
    let found := (List.range' 1 17).findSome? fun count => m.neighbour? tie exact (length - count)
    (found.getD m.exactDecimal).withoutEndingZeros

end Magnitude

end DeskCalculator
