import DeskCalculator.Text.Basic
import DeskCalculator.Binary64.Rounding

/-!
# Decimal numbers

A decimal is a whole coefficient with a power of ten. It is read as a binary64 number by rounding
its exact value once (`code`, `toBinary64`), and written either with all its places (`plain`) or
with one digit before the point and a power of ten (`scientific`).
-/

namespace DeskCalculator

/-- The number `coefficient * 10 ^ exponent`. -/
structure Decimal where
  coefficient : Nat
  exponent : Int
  deriving DecidableEq

namespace Decimal

/-! ## Value -/

/-- The numerator of the value in units. -/
def numerator (d : Decimal) : Nat :=
  d.coefficient * Nat.pow 10 d.exponent.toNat * Nat.pow 2 unitExponent

/-- The denominator of the value. -/
def denominator (d : Decimal) : Nat := Nat.pow 10 (-d.exponent).toNat

theorem denominator_pos (d : Decimal) : 0 < d.denominator := Nat.pow_pos (by decide)

/-- The code next to a decimal. -/
def code (d : Decimal) : Nat := nearestCode d.numerator d.denominator

/-- The number next to a decimal, with a given sign. -/
def toBinary64 (negative : Bool) (d : Decimal) : Binary64 :=
  .ofRatio negative d.numerator d.denominator

/-- The same decimal with no zero at the end of its coefficient. -/
def withoutEndingZeros (d : Decimal) : Decimal :=
  if _h : d.coefficient ≠ 0 ∧ d.coefficient % 10 = 0 then
    withoutEndingZeros ⟨d.coefficient / 10, d.exponent + 1⟩
  else d
termination_by d.coefficient
decreasing_by omega

/-! ## Text -/

/-- The digits of the coefficient. -/
def digits (d : Decimal) : Text := Nat.toDigits 10 d.coefficient

/-- The power of ten of the first digit. -/
def leadingExponent (d : Decimal) : Int := d.digits.length - 1 + d.exponent

/-- Digits with a point before the last `places` of them, and at least one digit before the point.
-/
def pointed (digits : Text) (places : Nat) : Text :=
  let padded := List.replicate (places + 1 - digits.length) '0' ++ digits
  let whole := padded.length - places
  padded.take whole ++ '.' :: padded.drop whole

/-- All places of the decimal; a whole number has no point. -/
def plain (d : Decimal) : Text :=
  if 0 ≤ d.exponent then d.digits ++ List.replicate d.exponent.toNat '0'
  else pointed d.digits (-d.exponent).toNat

/-- The digits with a point after the first one, unless that is the only one. -/
def mantissa (d : Decimal) : Text :=
  match d.digits with
  | [] => []
  | [digit] => [digit]
  | digit :: more => digit :: '.' :: more

/-- A mantissa and a power of ten, whose sign is always written and which has at least `width`
digits. -/
def scientific (d : Decimal) (width : Nat) : Text :=
  let power := Nat.toDigits 10 d.leadingExponent.natAbs
  d.mantissa ++ 'e' :: (if d.leadingExponent < 0 then '-' else '+') ::
    (List.replicate (width - power.length) '0' ++ power)

theorem isDigit_of_mem_digits {d : Decimal} {c : Char} (h : c ∈ d.digits) : c.isDigit = true :=
  Nat.isDigit_of_mem_toDigits (by decide) (by decide) h

/-- A plain decimal is written with digits and a point. -/
theorem isDigit_or_eq_of_mem_plain {d : Decimal} {c : Char} (h : c ∈ d.plain) :
    c.isDigit = true ∨ c = '.' := by
  have hzero {n : Nat} (hc : c ∈ List.replicate n '0') : c.isDigit = true := by
    rw [List.eq_of_mem_replicate hc]
    rfl
  unfold plain at h
  split at h
  · rcases List.mem_append.1 h with hc | hc
    · exact .inl (isDigit_of_mem_digits hc)
    · exact .inl (hzero hc)
  · unfold pointed at h
    have hpadded {n : Nat} (hc : c ∈ List.replicate n '0' ++ d.digits) : c.isDigit = true := by
      rcases List.mem_append.1 hc with hc | hc
      · exact hzero hc
      · exact isDigit_of_mem_digits hc
    rcases List.mem_append.1 h with hc | hc
    · exact .inl (hpadded (List.mem_of_mem_take hc))
    · rcases List.mem_cons.1 hc with rfl | hc
      · exact .inr rfl
      · exact .inl (hpadded (List.mem_of_mem_drop hc))

end Decimal

example : (Decimal.mk 125 (-1)).plain = ['1', '2', '.', '5'] := by decide
example : (Decimal.mk 125 (-5)).plain = ['0', '.', '0', '0', '1', '2', '5'] := by decide
example : (Decimal.mk 125 2).plain = ['1', '2', '5', '0', '0'] := by decide
example : (Decimal.mk 125 (-9)).scientific 2 = ['1', '.', '2', '5', 'e', '-', '0', '7'] := by decide

end DeskCalculator
