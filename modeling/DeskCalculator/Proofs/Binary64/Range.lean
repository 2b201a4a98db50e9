import DeskCalculator.Proofs.Binary64.Whole

/-!
# Quotients that stay in range

A number divided by a whole number of two or more stays finite (`Binary64.isFinite_div`), which no
check of the calculator sees to where it divides by a hundred.
-/

namespace DeskCalculator

theorem nearestCode_le {num den e : Nat} (h : num / den < Nat.pow 2 (53 + e)) :
    nearestCode num den ≤ (e + 2) * codesPerExponent := by
  have hstep : stepExponent (num / den) ≤ e := by
    rw [stepExponent]
    by_cases hzero : num / den = 0
    · simp [hzero]
    · have hlog := (Nat.log2_lt hzero).2 h
      omega
  have hquotient : num / den / 2 ^ stepExponent (num / den) < 2 ^ 53 := by
    rw [Nat.div_lt_iff_lt_mul (Nat.two_pow_pos _), ← Nat.pow_add]
    refine Nat.lt_of_lt_of_le Nat.lt_log2_self (Nat.pow_le_pow_right (by decide) ?_)
    rw [stepExponent]
    omega
  have hround : roundQuotient num (den * Nat.pow 2 (stepExponent (num / den))) ≤
      2 * codesPerExponent := by
    have hle (a b : Nat) : roundQuotient a b ≤ a / b + 1 := by
      simp only [roundQuotient]
      split <;> omega
    refine Nat.le_trans (hle _ _) ?_
    rw [← Nat.div_div_eq_div_mul]
    exact hquotient
  have hexponent := Nat.mul_le_mul_right codesPerExponent hstep
  simp only [nearestCode]
  rw [Nat.add_mul]
  exact Nat.add_le_add hexponent hround

theorem Magnitude.units_lt (m : Magnitude) {k : Nat} (hk : m.code / codesPerExponent ≤ k + 1) :
    m.units < Nat.pow 2 53 * Nat.pow 2 k := by
  have hpos : 0 < codesPerExponent := Nat.two_pow_pos 52
  have hdouble : codesPerExponent + codesPerExponent = 2 ^ 53 := by decide
  rw [units, unitsOfCode]
  split
  next hsmall =>
    have hfirst : m.code < 2 ^ 53 := by omega
    exact Nat.lt_of_lt_of_le hfirst (Nat.le_mul_of_pos_right _ (Nat.two_pow_pos k))
  next =>
    have hfirst : codesPerExponent + m.code % codesPerExponent < 2 ^ 53 := by
      have hmod := Nat.mod_lt m.code hpos
      omega
    have hsecond : Nat.pow 2 (m.code / codesPerExponent - 1) ≤ 2 ^ k :=
      Nat.pow_le_pow_right (by decide) (by omega)
    exact Nat.mul_lt_mul_of_lt_of_le hfirst hsecond (Nat.two_pow_pos k)

namespace Binary64

theorem units_eq_of_signedUnits {negative : Bool} {m : Magnitude} {z : Int} {unit : Nat}
    (h : signedUnits negative m = z * unit) : m.units = z.natAbs * unit := by
  have habs : (signedUnits negative m).natAbs = m.units := by
    unfold signedUnits
    split <;> simp
  rw [← habs, h, Int.natAbs_mul, Int.natAbs_natCast]

theorem Denotes.isZero_eq_false {x : Binary64} {z : Int} (hx : x.Denotes z) (hz : z ≠ 0) :
    x.isZero = false := by
  obtain ⟨negative, m, rfl, hunits⟩ := hx
  have hpos (k : Nat) : 0 < Nat.pow 2 k := Nat.pow_pos (by decide)
  have hm := units_eq_of_signedUnits hunits
  rw [isZero, beq_eq_false_iff_ne]
  intro hcode
  have hzero : m.units = 0 := by
    rw [Magnitude.units, hcode]
    rfl
  rw [hzero] at hm
  rcases Nat.mul_eq_zero.1 hm.symm with h | h
  · exact hz (Int.natAbs_eq_zero.1 h)
  · exact absurd h (Nat.ne_of_gt (hpos _))

/-- **A finite number divided by a whole number of two or more is finite.** -/
theorem isFinite_div {x y : Binary64} {z : Int} (hx : x.isFinite = true) (hy : y.Denotes z)
    (hz : 2 ≤ z.natAbs) : (x.div y).isFinite = true := by
  have hzero := hy.isZero_eq_false (by omega)
  have hpos (k : Nat) : 0 < Nat.pow 2 k := Nat.pow_pos (by decide)
  obtain ⟨b, n, rfl, hunits⟩ := hy
  cases x with
  | nan => cases hx
  | infinite => cases hx
  | finite a m =>
    have hcode : n.code ≠ 0 := by simpa [isZero] using hzero
    have hquotient (k : Nat) (hk : m.code / codesPerExponent ≤ k + 1 + 1) :
        m.units / z.natAbs < Nat.pow 2 (53 + k) := by
      have hdouble : 2 ^ 53 * 2 ^ (k + 1) = 2 * 2 ^ (53 + k) := by
        rw [Nat.pow_add 2 53 k, Nat.pow_succ]
        omega
      refine Nat.div_lt_of_lt_mul (Nat.lt_of_lt_of_le (m.units_lt hk) ?_)
      show 2 ^ 53 * 2 ^ (k + 1) ≤ z.natAbs * 2 ^ (53 + k)
      rw [hdouble]
      exact Nat.mul_le_mul_right _ hz
    have hexponent : m.code / codesPerExponent < 2047 :=
      (Nat.div_lt_iff_lt_mul (hpos 52)).2 m.code_lt
    have hlt : nearestCode (m.units * Nat.pow 2 unitExponent) (z.natAbs * Nat.pow 2 unitExponent) <
        infinityCode := by
      rw [nearestCode_mul_right _ _ (hpos _)]
      refine Nat.lt_of_le_of_lt (nearestCode_le (hquotient 2044 (by omega))) ?_
      exact Nat.mul_lt_mul_of_pos_right (by decide) (hpos 52)
    simp only [div, if_neg hcode, units_eq_of_signedUnits hunits, ofRatio, dif_pos hlt, isFinite]

end Binary64

end DeskCalculator
