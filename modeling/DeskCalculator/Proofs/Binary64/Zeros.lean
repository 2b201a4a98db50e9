import DeskCalculator.Operation
import DeskCalculator.Proofs.Binary64.Grid

/-!
# The sign of a zero

No operation tells the two zeros apart but by the sign of a zero that it gives: with the signs of all
zeros left out (`unsignedZero`) of operands and results, the outcomes are the same
(`map_unsignedZero_apply`, `map_unsignedZero_squareRoot`).
-/

namespace DeskCalculator

namespace Binary64

/-- The number, a zero without its sign. -/
def unsignedZero (x : Binary64) : Binary64 := if x.isZero then .zero else x

variable {x y : Binary64}

theorem unsignedZero_of_isZero (h : x.isZero = true) : x.unsignedZero = .zero := if_pos h

theorem unsignedZero_of_not_isZero (h : x.isZero = false) : x.unsignedZero = x :=
  if_neg (by simp [h])

theorem isZero_of_isBelowZero (h : x.isBelowZero = true) : x.isZero = false := by
  cases x with
  | nan => rfl
  | infinite => rfl
  | finite negative m =>
    simp only [isBelowZero, Bool.and_eq_true, bne_iff_ne] at h
    simpa [isZero] using h.2

theorem isZero_or_unsignedZero_eq (x : Binary64) :
    (∃ negative, x = .finite negative .zero) ∨ x.unsignedZero = x := by
  cases h : x.isZero with
  | true => exact .inl (isZero_iff.1 h)
  | false => exact .inr (unsignedZero_of_not_isZero h)

@[simp] theorem unsignedZero_finite_zero (negative : Bool) :
    (finite negative .zero).unsignedZero = .zero := unsignedZero_of_isZero rfl

@[simp] theorem isZero_unsignedZero (x : Binary64) : x.unsignedZero.isZero = x.isZero := by
  rcases isZero_or_unsignedZero_eq x with ⟨negative, rfl⟩ | h
  · rfl
  · rw [h]

@[simp] theorem isBelowZero_unsignedZero (x : Binary64) :
    x.unsignedZero.isBelowZero = x.isBelowZero := by
  rcases isZero_or_unsignedZero_eq x with ⟨negative, rfl⟩ | h
  · cases negative <;> rfl
  · rw [h]

@[simp] theorem unsignedZero_unsignedZero (x : Binary64) :
    x.unsignedZero.unsignedZero = x.unsignedZero := by
  rcases isZero_or_unsignedZero_eq x with ⟨negative, rfl⟩ | h
  · rfl
  · rw [h, h]

theorem unsignedZero_neg_unsignedZero (x : Binary64) :
    x.unsignedZero.neg.unsignedZero = x.neg.unsignedZero := by
  rcases isZero_or_unsignedZero_eq x with ⟨negative, rfl⟩ | h
  · rfl
  · rw [h]

/-! ## Operations -/

theorem add_comm (x y : Binary64) : x.add y = y.add x := by
  cases x with
  | nan => cases y <;> rfl
  | infinite a =>
    cases y with
    | nan => rfl
    | infinite b =>
      by_cases h : a = b
      · rw [h]
      · simp only [add, if_neg h, if_neg (Ne.symm h)]
    | finite b n => rfl
  | finite a m =>
    cases y with
    | nan => rfl
    | infinite b => rfl
    | finite b n =>
      simp only [add, Int.add_comm (signedUnits a m) (signedUnits b n), Bool.and_comm a b]

theorem signedUnits_zero (negative : Bool) : signedUnits negative .zero = 0 := by
  cases negative <;> rfl

theorem unsignedZero_add_left (x y : Binary64) :
    (x.unsignedZero.add y).unsignedZero = (x.add y).unsignedZero := by
  rcases isZero_or_unsignedZero_eq x with ⟨negative, rfl⟩ | h
  · rw [unsignedZero_finite_zero, zero]
    cases y with
    | nan => rfl
    | infinite b => rfl
    | finite b n =>
      simp only [add, signedUnits_zero]
      split
      · rw [unsignedZero_finite_zero, unsignedZero_finite_zero]
      · rfl
  · rw [h]

theorem unsignedZero_add (x y : Binary64) :
    (x.unsignedZero.add y.unsignedZero).unsignedZero = (x.add y).unsignedZero := by
  rw [unsignedZero_add_left, add_comm x, unsignedZero_add_left, add_comm y]

theorem unsignedZero_sub (x y : Binary64) :
    (x.unsignedZero.sub y.unsignedZero).unsignedZero = (x.sub y).unsignedZero := by
  rw [sub, sub, ← unsignedZero_add, unsignedZero_neg_unsignedZero, unsignedZero_add,
    unsignedZero_add_left]

theorem ofRatio_zero (negative : Bool) (den : Nat) :
    ofRatio negative 0 den = .finite negative .zero :=
  ofRatio_of_nearestCode_eq negative (nearestCode_zero den)

theorem mul_comm (x y : Binary64) : x.mul y = y.mul x := by
  cases x with
  | nan => cases y <;> rfl
  | infinite a =>
    cases y with
    | nan => rfl
    | infinite b => simp only [mul, Bool.xor_comm a b]
    | finite b n => rfl
  | finite a m =>
    cases y with
    | nan => rfl
    | infinite b => rfl
    | finite b n => simp only [mul, Bool.xor_comm a b, Nat.mul_comm m.units n.units]

theorem units_zero : Magnitude.zero.units = 0 := rfl

theorem unsignedZero_mul_left (x y : Binary64) :
    (x.unsignedZero.mul y).unsignedZero = (x.mul y).unsignedZero := by
  rcases isZero_or_unsignedZero_eq x with ⟨negative, rfl⟩ | h
  · rw [unsignedZero_finite_zero, zero]
    cases y with
    | nan => rfl
    | infinite b => rfl
    | finite b n =>
      simp only [mul, units_zero, Nat.zero_mul, ofRatio_zero, unsignedZero_finite_zero]
  · rw [h]

theorem unsignedZero_mul (x y : Binary64) :
    (x.unsignedZero.mul y.unsignedZero).unsignedZero = (x.mul y).unsignedZero := by
  rw [unsignedZero_mul_left, mul_comm x, unsignedZero_mul_left, mul_comm y]

theorem unsignedZero_div_left (x : Binary64) (hy : y.isZero = false) :
    (x.unsignedZero.div y).unsignedZero = (x.div y).unsignedZero := by
  rcases isZero_or_unsignedZero_eq x with ⟨negative, rfl⟩ | h
  · rw [unsignedZero_finite_zero, zero]
    cases y with
    | nan => rfl
    | infinite b => simp only [div, unsignedZero_finite_zero]
    | finite b n =>
      have hcode : n.code ≠ 0 := by simpa [isZero] using hy
      simp only [div, if_neg hcode, units_zero, Nat.zero_mul, ofRatio_zero,
        unsignedZero_finite_zero]
  · rw [h]

theorem unsignedZero_sqrt (x : Binary64) :
    x.unsignedZero.sqrt.unsignedZero = x.sqrt.unsignedZero := by
  rcases isZero_or_unsignedZero_eq x with ⟨negative, rfl⟩ | h
  · rw [unsignedZero_finite_zero, zero]
    rfl
  · rw [h]

end Binary64

open Binary64 (unsignedZero)

/-! ## Checked operations -/

theorem map_unsignedZero_checked (x : Binary64) :
    (checked x).map unsignedZero = checked x.unsignedZero := by
  rcases x.isZero_or_unsignedZero_eq with ⟨negative, rfl⟩ | h
  · rfl
  · rw [h]
    cases x with
    | nan => rfl
    | infinite => rfl
    | finite => exact congrArg Except.ok h

theorem map_unsignedZero_apply (op : Operator) (x y : Binary64) :
    (op.apply x.unsignedZero y.unsignedZero).map unsignedZero = (op.apply x y).map unsignedZero := by
  cases op with
  | add =>
    simp only [Operator.apply, map_unsignedZero_checked, Binary64.unsignedZero_add]
  | subtract =>
    simp only [Operator.apply, map_unsignedZero_checked, Binary64.unsignedZero_sub]
  | multiply =>
    simp only [Operator.apply, map_unsignedZero_checked, Binary64.unsignedZero_mul]
  | divide =>
    simp only [Operator.apply, Binary64.isZero_unsignedZero]
    split
    next => rfl
    next h =>
      have hy : y.isZero = false := by simpa using h
      rw [Binary64.unsignedZero_of_not_isZero hy, map_unsignedZero_checked, map_unsignedZero_checked,
        Binary64.unsignedZero_div_left x hy]

theorem map_unsignedZero_squareRoot (x : Binary64) :
    (squareRoot x.unsignedZero).map unsignedZero = (squareRoot x).map unsignedZero := by
  rw [squareRoot, squareRoot, Binary64.isBelowZero_unsignedZero]
  split
  next h => rw [Binary64.unsignedZero_of_not_isZero (Binary64.isZero_of_isBelowZero h)]
  next => rw [map_unsignedZero_checked, map_unsignedZero_checked, Binary64.unsignedZero_sqrt]

end DeskCalculator
