import DeskCalculator.Binary64.Rounding

/-!
# Arithmetic on binary64 numbers

The four operations and the square root round the exact result once. Their special cases are those
of the floating point standard: an invalid operation gives `nan`, a quotient of a number other than
zero by zero is infinite, the sign of a product or quotient is the exclusive or of the signs, and a
sum that is exactly zero has a sign only if both operands have one.
-/

namespace DeskCalculator

namespace Binary64

/-- A value in units with its sign. -/
def signedUnits (negative : Bool) (m : Magnitude) : Int :=
  if negative then -(m.units : Int) else m.units

/-- The sum. -/
def add : Binary64 → Binary64 → Binary64
  | .nan, _ | _, .nan => .nan
  | .infinite a, .infinite b => if a = b then .infinite a else .nan
  | .infinite a, .finite .. => .infinite a
  | .finite .., .infinite b => .infinite b
  | .finite a m, .finite b n =>
    let sum := signedUnits a m + signedUnits b n
    if sum = 0 then .finite (a && b) .zero else ofRatio (decide (sum < 0)) sum.natAbs 1

/-- The difference. -/
def sub (x y : Binary64) : Binary64 := x.add y.neg

/-- The product. -/
def mul : Binary64 → Binary64 → Binary64
  | .nan, _ | _, .nan => .nan
  | .infinite a, .infinite b => .infinite (a ^^ b)
  | .infinite a, .finite b m | .finite b m, .infinite a =>
    if m.code = 0 then .nan else .infinite (a ^^ b)
  | .finite a m, .finite b n => ofRatio (a ^^ b) (m.units * n.units) (Nat.pow 2 unitExponent)

/-- The quotient. -/
def div : Binary64 → Binary64 → Binary64
  | .nan, _ | _, .nan => .nan
  | .infinite _, .infinite _ => .nan
  | .infinite a, .finite b _ => .infinite (a ^^ b)
  | .finite a _, .infinite b => .finite (a ^^ b) .zero
  | .finite a m, .finite b n =>
    if n.code = 0 then (if m.code = 0 then .nan else .infinite (a ^^ b))
    else ofRatio (a ^^ b) (m.units * Nat.pow 2 unitExponent) n.units

/-- The square root. In units the root lies in a step from one whole number to the next, and those
steps are so fine that no tie of the grid lies inside one; a root strictly inside is rounded from
the middle of its step. -/
def sqrt : Binary64 → Binary64
  | .nan => .nan
  | .infinite negative => if negative then .nan else .infinite false
  | .finite negative m =>
    if m.code = 0 then .finite negative m
    else if negative then .nan
    else
      let square := m.units * Nat.pow 2 unitExponent
      let root := square.sqrt
      ofRatio false (2 * root + (if root * root = square then 0 else 1)) 2

/-! ## Where no operation is invalid -/

theorem add_ne_nan {x y : Binary64} (hx : x.isFinite = true) (hy : y.isFinite = true) :
    x.add y ≠ .nan := by
  cases x <;> cases y <;> simp_all [isFinite, add]
  split
  · simp
  · exact ofRatio_ne_nan _ _ _

theorem sub_ne_nan {x y : Binary64} (hx : x.isFinite = true) (hy : y.isFinite = true) :
    x.sub y ≠ .nan :=
  add_ne_nan hx (by simpa using hy)

theorem mul_ne_nan {x y : Binary64} (hx : x.isFinite = true) (hy : y.isFinite = true) :
    x.mul y ≠ .nan := by
  cases x <;> cases y <;> simp_all [isFinite, mul, ofRatio_ne_nan]

theorem div_ne_nan {x y : Binary64} (hx : x.isFinite = true) (hy : y.isFinite = true)
    (h : y.isZero = false) : x.div y ≠ .nan := by
  cases x <;> cases y <;> simp_all [isFinite, isZero, div, ofRatio_ne_nan]

theorem sqrt_ne_nan {x : Binary64} (hx : x.isFinite = true) (h : x.isBelowZero = false) :
    x.sqrt ≠ .nan := by
  cases x with
  | nan => simp [isFinite] at hx
  | infinite => simp [isFinite] at hx
  | finite negative m =>
    simp only [sqrt]
    split
    · simp
    · split
      · simp_all [isBelowZero]
      · exact ofRatio_ne_nan _ _ _

end Binary64

end DeskCalculator
