import DeskCalculator.Operation
import DeskCalculator.Proofs.Decimal.ReadBack
import DeskCalculator.Proofs.Expr.Grammar

/-!
# Whole numbers

Every whole number below `2 ^ 53` lies on the grid (`exists_magnitude`), so that it is read without
rounding (`literal?_digits`) and that sums and differences of such numbers are exact as long as they
stay below that bound (`Operator.apply_of_denotes`).
-/

namespace DeskCalculator

/-! ## On the grid -/

/-- A number of 53 bits and a power of two lie on the grid; a short number is doubled until it has
its first bit, or the power is used up. -/
theorem exists_code {p m : Nat} (hm : m < 2 * codesPerExponent) (hp : p ≤ 2045) :
    ∃ code, code < infinityCode ∧ unitsOfCode code = m * Nat.pow 2 p := by
  have hpos : 0 < codesPerExponent := Nat.two_pow_pos 52
  induction p generalizing m with
  | zero =>
    by_cases hsmall : m < codesPerExponent
    · refine ⟨m, Nat.lt_of_lt_of_le hsmall ?_, ?_⟩
      · exact Nat.le_mul_of_pos_left _ (by decide)
      · rw [unitsOfCode, if_pos hsmall]
        exact (Nat.mul_one m).symm
    · obtain ⟨r, rfl⟩ := Nat.exists_eq_add_of_le (Nat.le_of_not_lt hsmall)
      refine ⟨(0 + 1) * codesPerExponent + r, ?_, unitsOfCode_exponent 0 (by omega)⟩
      rw [infinityCode]
      omega
  | succ p ih =>
    by_cases hsmall : m < codesPerExponent
    · obtain ⟨code, hcode, hunits⟩ := ih (m := m * 2) (by omega) (by omega)
      refine ⟨code, hcode, hunits.trans ?_⟩
      rw [Nat.mul_assoc, Nat.mul_comm 2]
      rfl
    · obtain ⟨r, rfl⟩ := Nat.exists_eq_add_of_le (Nat.le_of_not_lt hsmall)
      refine ⟨(p + 1 + 1) * codesPerExponent + r, ?_, unitsOfCode_exponent (p + 1) (by omega)⟩
      have hexponent : (p + 1 + 2) * codesPerExponent ≤ infinityCode :=
        Nat.mul_le_mul_right _ (by omega)
      rw [Nat.add_mul] at hexponent
      rw [Nat.add_mul (p + 1)]
      omega

theorem exists_magnitude {n : Nat} (hn : n < Nat.pow 2 53) :
    ∃ m : Magnitude, m.units = n * Nat.pow 2 unitExponent := by
  obtain ⟨code, hcode, hunits⟩ := exists_code (p := unitExponent) hn (by decide)
  exact ⟨⟨code, hcode⟩, hunits⟩

namespace Binary64

/-- The exact value of the number is the whole number `z`. -/
def Denotes (x : Binary64) (z : Int) : Prop :=
  ∃ negative m, x = .finite negative m ∧ signedUnits negative m = z * (Nat.pow 2 unitExponent : Nat)

theorem Denotes.isFinite {x : Binary64} {z : Int} (h : x.Denotes z) : x.isFinite = true := by
  obtain ⟨negative, m, rfl, -⟩ := h
  rfl

theorem denotes_ofRatio (negative : Bool) {n : Nat} (hn : n < Nat.pow 2 53) :
    (ofRatio negative (n * Nat.pow 2 unitExponent) 1).Denotes (if negative then -n else n) := by
  obtain ⟨m, hm⟩ := exists_magnitude hn
  have hcode : nearestCode (n * Nat.pow 2 unitExponent) 1 = m.code := by
    rw [← hm]
    exact nearestCode_unitsOfCode m.code
  refine ⟨negative, m, ofRatio_of_nearestCode_eq negative hcode, ?_⟩
  rw [signedUnits, hm, Int.natCast_mul]
  generalize (Nat.pow 2 unitExponent : Nat) = unit
  cases negative with
  | false => simp only [Bool.false_eq_true, if_false]
  | true => simp only [if_true, Int.neg_mul]

/-! ## Exact arithmetic -/

theorem Denotes.neg {x : Binary64} {z : Int} (h : x.Denotes z) : x.neg.Denotes (-z) := by
  obtain ⟨negative, m, rfl, hunits⟩ := h
  refine ⟨!negative, m, rfl, ?_⟩
  rw [Int.neg_mul, ← hunits]
  cases negative <;> simp [signedUnits]

theorem Denotes.add {x y : Binary64} {a b : Int} (hx : x.Denotes a) (hy : y.Denotes b)
    (h : (a + b).natAbs < Nat.pow 2 53) : (x.add y).Denotes (a + b) := by
  obtain ⟨s, m, rfl, hm⟩ := hx
  obtain ⟨t, n, rfl, hn⟩ := hy
  have hunit : (0 : Int) < (Nat.pow 2 unitExponent : Nat) := by
    have hpos (k : Nat) : 0 < Nat.pow 2 k := Nat.pow_pos (by decide)
    exact Int.natCast_pos.2 (hpos unitExponent)
  have hsum : signedUnits s m + signedUnits t n = (a + b) * (Nat.pow 2 unitExponent : Nat) := by
    rw [hm, hn, Int.add_mul]
  simp only [Binary64.add, hsum]
  split
  next hzero =>
    have hab : a + b = 0 := (Int.mul_eq_zero.1 hzero).resolve_right (Int.ne_of_gt hunit)
    refine ⟨_, _, rfl, ?_⟩
    rw [hab, Int.zero_mul]
    cases s <;> cases t <;> rfl
  next =>
    have habs : ((a + b) * (Nat.pow 2 unitExponent : Nat)).natAbs =
        (a + b).natAbs * Nat.pow 2 unitExponent := by rw [Int.natAbs_mul, Int.natAbs_natCast]
    have hsign : (a + b) * (Nat.pow 2 unitExponent : Nat) < 0 ↔ a + b < 0 := by
      rw [Int.mul_comm]
      exact ⟨fun h => Int.neg_of_mul_neg_right h hunit, fun h => Int.mul_neg_of_pos_of_neg hunit h⟩
    have hz : (if decide (a + b < 0) then -((a + b).natAbs : Int) else (a + b).natAbs) = a + b := by
      by_cases hneg : a + b < 0
      · rw [if_pos (decide_eq_true hneg)]
        omega
      · rw [if_neg (by simpa using hneg)]
        omega
    have hrounded := denotes_ofRatio (decide (a + b < 0)) h
    rw [hz] at hrounded
    rwa [habs, decide_eq_decide.2 hsign]

end Binary64

namespace Operator

/-- What an additive operator makes of whole numbers. -/
def onWhole (op : Operator) (a b : Int) : Int := if op = .subtract then a - b else a + b

theorem natAbs_onWhole_le (op : Operator) (a b : Int) :
    (op.onWhole a b).natAbs ≤ a.natAbs + b.natAbs := by
  unfold onWhole
  split <;> omega

/-- **Sums and differences of whole numbers are exact.** -/
theorem apply_of_denotes {op : Operator} (hop : op.IsAdditive) {x y : Binary64} {a b : Int}
    (hx : x.Denotes a) (hy : y.Denotes b) (h : a.natAbs + b.natAbs < Nat.pow 2 53) :
    ∃ z, op.apply x y = .ok z ∧ z.Denotes (op.onWhole a b) := by
  have hchecked {z : Binary64} {c : Int} (hz : z.Denotes c) :
      ∃ z', checked z = .ok z' ∧ z'.Denotes c := by
    obtain ⟨negative, m, rfl, hunits⟩ := hz
    exact ⟨_, rfl, negative, m, rfl, hunits⟩
  rcases hop with rfl | rfl
  · exact hchecked (hx.add hy (by omega))
  · refine hchecked (c := a - b) ?_
    rw [Int.sub_eq_add_neg]
    exact hx.add hy.neg (by omega)

end Operator

/-! ## Whole literals -/

theorem Decimal.denotes_toBinary64 {n : Nat} (hn : n < Nat.pow 2 53) :
    (Decimal.toBinary64 false ⟨n, 0⟩).Denotes n := by
  have hratio : Decimal.toBinary64 false ⟨n, 0⟩ =
      .ofRatio false (n * Nat.pow 2 unitExponent) 1 := by
    rw [Decimal.toBinary64, Decimal.numerator, Decimal.denominator]
    simp
  rw [hratio]
  exact Binary64.denotes_ofRatio false hn

theorem literal?_digits {t : Text} (hne : t ≠ []) (hdigits : ∀ c ∈ t, c.isDigit = true)
    (h : Nat.ofDigitChars 10 t 0 < Nat.pow 2 53) :
    ∃ x, literal? t = .ok (some x) ∧ x.Denotes (Nat.ofDigitChars 10 t 0) := by
  have hread : (Literal.mk false (Literal.unsignedValue t)).value =
      Decimal.toBinary64 false ⟨Nat.ofDigitChars 10 t 0, 0⟩ := by
    rw [Literal.unsignedValue_of_digits hdigits, Literal.value]
  have hdenotes := Decimal.denotes_toBinary64 h
  have hunsigned := Literal.isUnsigned_of_digits hne hdigits
  exact ⟨_, literal?_eq_ok_some_iff.2
    ⟨_, Literal.ofText?_of_isUnsigned hunsigned, hread, hdenotes.isFinite⟩, hdenotes⟩

end DeskCalculator
