import DeskCalculator.Binary64.Basic

/-!
# Rounding to the grid

Every operation rounds one exact quotient once. `nearestCode num den` is the code of the magnitude
next to `num / den` units, a tie going to the even code; the magnitudes with an even significand are
those with an even code. A quotient that lies half a step or more past the largest finite magnitude
has the code of infinity or a larger one, and `ofRatio` makes it infinite.
-/

namespace DeskCalculator

/-- The whole number next to `num / den`, a tie going to the even one. -/
def roundQuotient (num den : Nat) : Nat :=
  let below := num / den
  let left := num % den
  if den < 2 * left ∨ (den = 2 * left ∧ below % 2 = 1) then below + 1 else below

theorem roundQuotient_mul_right (num den : Nat) {k : Nat} (hk : 0 < k) :
    roundQuotient (num * k) (den * k) = roundQuotient num den := by
  have hlt : den * k < 2 * (num % den * k) ↔ den < 2 * (num % den) := by
    rw [← Nat.mul_assoc]
    exact Nat.mul_lt_mul_right hk
  have heq : den * k = 2 * (num % den * k) ↔ den = 2 * (num % den) := by
    rw [← Nat.mul_assoc]
    exact Nat.mul_left_inj (Nat.ne_of_gt hk)
  simp only [roundQuotient, Nat.mul_div_mul_right _ _ hk, Nat.mul_mod_mul_right, hlt, heq]

/-- The exponent of the step of the grid at a value of `whole` units and a fraction. -/
def stepExponent (whole : Nat) : Nat := whole.log2 - 52

/-- The code next to `num / den` units, a tie going to the even code. -/
def nearestCode (num den : Nat) : Nat :=
  let exponent := stepExponent (num / den)
  exponent * codesPerExponent + roundQuotient num (den * Nat.pow 2 exponent)

/-- The nearest code depends on the quotient alone. -/
theorem nearestCode_mul_right (num den : Nat) {k : Nat} (hk : 0 < k) :
    nearestCode (num * k) (den * k) = nearestCode num den := by
  have hden (e : Nat) : den * k * Nat.pow 2 e = den * Nat.pow 2 e * k := Nat.mul_right_comm _ _ _
  simp only [nearestCode, Nat.mul_div_mul_right _ _ hk, hden, roundQuotient_mul_right _ _ hk]

namespace Binary64

/-- The number next to `num / den` units, with a given sign. -/
def ofRatio (negative : Bool) (num den : Nat) : Binary64 :=
  if h : nearestCode num den < infinityCode then .finite negative ⟨nearestCode num den, h⟩
  else .infinite negative

theorem ofRatio_ne_nan (negative : Bool) (num den : Nat) : ofRatio negative num den ≠ .nan := by
  unfold ofRatio
  split <;> simp

@[simp] theorem neg_ofRatio (negative : Bool) (num den : Nat) :
    (ofRatio negative num den).neg = ofRatio (!negative) num den := by
  unfold ofRatio
  split <;> rfl

end Binary64

end DeskCalculator
