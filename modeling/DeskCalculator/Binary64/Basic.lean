/-!
# Binary64 numbers

The numbers of the calculator are the binary floating point numbers of 64 bits: finite ones with a
sign, two infinities and one value that is not a number.

The finite magnitudes stand on a grid, and a magnitude is stored as its place on it (`code`): zero
is 0, the least positive magnitude is 1, and a larger code is a larger magnitude. Every magnitude is
a whole multiple (`units`) of the least positive one, which is `2 ^ -1074`, so that exact arithmetic
on finite numbers is arithmetic on naturals.
-/

namespace DeskCalculator

/-- The number of codes that share one power of two. -/
def codesPerExponent : Nat := Nat.pow 2 52

/-- The first code past the finite magnitudes; it stands for infinity. -/
def infinityCode : Nat := 2047 * codesPerExponent

/-- A finite magnitude, by its place on the grid. -/
structure Magnitude where
  /-- The number of magnitudes below this one. -/
  code : Nat
  code_lt : code < infinityCode
  deriving DecidableEq

/-- A binary floating point number of 64 bits. -/
inductive Binary64 where
  | nan
  | infinite (negative : Bool)
  | finite (negative : Bool) (magnitude : Magnitude)
  deriving DecidableEq

/-- The exponent of the unit `2 ^ -1074`, up to its sign. -/
def unitExponent : Nat := 1074

/-- The value of a code in units. Up to the second power of two the grid has the step 1; from there
on each power of two doubles the step. -/
def unitsOfCode (code : Nat) : Nat :=
  if code < codesPerExponent then code
  else (codesPerExponent + code % codesPerExponent) * Nat.pow 2 (code / codesPerExponent - 1)

namespace Magnitude

/-- The value of a magnitude in units. -/
def units (m : Magnitude) : Nat := unitsOfCode m.code

/-- The magnitude zero. -/
def zero : Magnitude := ⟨0, by decide⟩

end Magnitude

namespace Binary64

/-- The zero with a clear sign. -/
def zero : Binary64 := .finite false .zero

/-- Whether a number is one of the two zeros. -/
def isZero : Binary64 → Bool
  | .finite _ m => m.code == 0
  | _ => false

/-- Whether a number is less than zero; a zero with a sign is not. -/
def isBelowZero : Binary64 → Bool
  | .nan => false
  | .infinite negative => negative
  | .finite negative m => negative && m.code != 0

/-- Whether a number is neither infinite nor without value. -/
def isFinite : Binary64 → Bool
  | .finite .. => true
  | _ => false

/-- The number with the opposite sign. -/
def neg : Binary64 → Binary64
  | .nan => .nan
  | .infinite negative => .infinite !negative
  | .finite negative m => .finite (!negative) m

/-! ## The interchange form -/

/-- The first word with the sign bit set. -/
def signBit : Nat := Nat.pow 2 63

/-- Reads the 64 bits of a number; the words past infinity are no numbers. -/
def ofBits (word : Nat) : Binary64 :=
  let negative := signBit ≤ word
  let code := word % signBit
  if h : code < infinityCode then .finite negative ⟨code, h⟩
  else if code = infinityCode then .infinite negative
  else .nan

/-- The 64 bits of a number; all that is not a number has one word. -/
def toBits : Binary64 → Nat
  | .nan => infinityCode + codesPerExponent / 2
  | .infinite negative => (if negative then signBit else 0) + infinityCode
  | .finite negative m => (if negative then signBit else 0) + m.code

private theorem signBit_bounds : infinityCode + codesPerExponent / 2 < signBit := by decide

theorem ofBits_toBits (x : Binary64) : ofBits x.toBits = x := by
  have hs := signBit_bounds
  have hc : 0 < codesPerExponent / 2 := by decide
  have hpos : 0 < signBit := by omega
  have add_mod (n : Nat) (h : n < signBit) : (signBit + n) % signBit = n := by
    rw [Nat.add_mod_left, Nat.mod_eq_of_lt h]
  cases x with
  | nan =>
    unfold ofBits toBits
    simp only [Nat.mod_eq_of_lt hs]
    rw [dif_neg (by omega), if_neg (by omega)]
  | infinite negative =>
    cases negative
    · unfold ofBits toBits
      simp only [Bool.false_eq_true, if_false, Nat.zero_add,
        Nat.mod_eq_of_lt (show infinityCode < signBit by omega)]
      rw [dif_neg (by omega), if_pos trivial, decide_eq_false (by omega)]
    · unfold ofBits toBits
      simp only [if_true, add_mod infinityCode (by omega)]
      rw [dif_neg (by omega), decide_eq_true (by omega)]
  | finite negative m =>
    have hm := m.code_lt
    cases negative
    · unfold ofBits toBits
      simp only [Bool.false_eq_true, if_false, Nat.zero_add,
        Nat.mod_eq_of_lt (show m.code < signBit by omega)]
      rw [dif_pos hm, decide_eq_false (by omega)]
    · unfold ofBits toBits
      simp only [if_true, add_mod m.code (by omega)]
      rw [dif_pos hm, decide_eq_true (by omega)]

/-! ## Small facts -/

theorem isZero_iff {x : Binary64} : x.isZero = true ↔ ∃ negative, x = .finite negative .zero := by
  cases x with
  | nan => simp [isZero]
  | infinite => simp [isZero]
  | finite negative m =>
    cases m
    simp [isZero, Magnitude.zero]

theorem neg_neg (x : Binary64) : x.neg.neg = x := by cases x <;> simp [neg]

@[simp] theorem isFinite_neg (x : Binary64) : x.neg.isFinite = x.isFinite := by
  cases x <;> rfl

@[simp] theorem isZero_neg (x : Binary64) : x.neg.isZero = x.isZero := by cases x <;> rfl

end Binary64

end DeskCalculator
