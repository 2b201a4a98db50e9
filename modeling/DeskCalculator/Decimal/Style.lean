import DeskCalculator.Decimal.Shortest

/-!
# Styles of writing a magnitude

A style settles what the shortest digits leave open: when all places are written, what marks a whole
number, how wide a power of ten is and which of two equally short decimals is taken.
-/

namespace DeskCalculator

/-- How a magnitude is written. -/
structure NumberStyle where
  /-- The choice between two equally near decimals. -/
  tie : Tie
  /-- Whether a number whose first digit has this power of ten is written with all its places. -/
  isPositional : Int → Bool
  /-- What follows a whole number that is written with all its places. -/
  wholeEnding : Text
  /-- The least number of digits of a power of ten. -/
  exponentWidth : Nat

namespace NumberStyle

/-- All places, always. -/
def plain : NumberStyle where
  tie := .up
  isPositional _ := true
  wholeEnding := []
  exponentWidth := 0

/-- All places from `10 ^ -4` up to below `10 ^ 21`, else a power of ten of two or more digits. -/
def general : NumberStyle where
  tie := .up
  isPositional exponent := -4 ≤ exponent && exponent < 21
  wholeEnding := []
  exponentWidth := 2

/-- All places from `10 ^ -5` up to below `10 ^ 16`, where a whole number keeps a place, else a
power of ten. -/
def json : NumberStyle where
  tie := .toEven
  isPositional exponent := -5 ≤ exponent && exponent < 16
  wholeEnding := ['.', '0']
  exponentWidth := 0

/-- Writes a magnitude. -/
def write (style : NumberStyle) (m : Magnitude) : Text :=
  let d := m.shortest style.tie
  if style.isPositional d.leadingExponent then
    d.plain ++ (if 0 ≤ d.exponent then style.wholeEnding else [])
  else d.scientific style.exponentWidth

theorem write_plain (m : Magnitude) : plain.write m = (m.shortest .up).plain := by
  have hending : (if 0 ≤ (m.shortest .up).exponent then ([] : Text) else []) = [] := ite_self _
  exact (congrArg ((m.shortest .up).plain ++ ·) hending).trans (List.append_nil _)

end NumberStyle

end DeskCalculator
