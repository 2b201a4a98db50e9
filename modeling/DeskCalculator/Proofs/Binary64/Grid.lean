import DeskCalculator.Binary64.Rounding

/-!
# The grid of magnitudes

A magnitude lies on the grid that is rounded to, so that rounding its exact value gives it back
(`nearestCode_unitsOfCode`).
-/

namespace DeskCalculator

theorem unitsOfCode_exponent (k : Nat) {r : Nat} (hr : r < codesPerExponent) :
    unitsOfCode ((k + 1) * codesPerExponent + r) = (codesPerExponent + r) * Nat.pow 2 k := by
  have hpos : 0 < codesPerExponent := Nat.two_pow_pos 52
  have hdiv : ((k + 1) * codesPerExponent + r) / codesPerExponent = k + 1 := by
    rw [Nat.add_comm, Nat.add_mul_div_right _ _ hpos, Nat.div_eq_of_lt hr, Nat.zero_add]
  have hmod : ((k + 1) * codesPerExponent + r) % codesPerExponent = r := by
    rw [Nat.add_comm, Nat.add_mul_mod_self_right, Nat.mod_eq_of_lt hr]
  have hlarge : ¬ (k + 1) * codesPerExponent + r < codesPerExponent := by
    rw [Nat.succ_mul]
    omega
  rw [unitsOfCode, if_neg hlarge, hdiv, hmod, Nat.add_sub_cancel]

theorem roundQuotient_of_dvd (a : Nat) {d : Nat} (hd : 0 < d) : roundQuotient (a * d) d = a := by
  have hmod : a * d % d = 0 := Nat.mul_mod_left a d
  have hdiv : a * d / d = a := Nat.mul_div_cancel a hd
  simp only [roundQuotient, hmod, hdiv]
  rw [if_neg]
  omega

theorem nearestCode_zero (den : Nat) : nearestCode 0 den = 0 := by
  have hstep : stepExponent 0 = 0 := rfl
  simp [nearestCode, roundQuotient, hstep]

theorem log2_significand {r : Nat} (hr : r < codesPerExponent) (k : Nat) :
    ((codesPerExponent + r) * Nat.pow 2 k).log2 = 52 + k := by
  have hpow : 0 < 2 ^ k := Nat.two_pow_pos k
  change r < 2 ^ 52 at hr
  show ((2 ^ 52 + r) * 2 ^ k).log2 = 52 + k
  have hne : (2 ^ 52 + r) * 2 ^ k ≠ 0 := Nat.ne_of_gt (Nat.mul_pos (by omega) hpow)
  rw [Nat.log2_eq_iff hne]
  constructor
  · rw [Nat.pow_add]
    exact Nat.mul_le_mul_right _ (by omega)
  · have hnext : 2 ^ (52 + k + 1) = 2 ^ 53 * 2 ^ k := by
      rw [← Nat.pow_add]
      congr 1
      omega
    rw [hnext]
    exact Nat.mul_lt_mul_of_pos_right (by omega) hpow

theorem nearestCode_unitsOfCode (code : Nat) : nearestCode (unitsOfCode code) 1 = code := by
  unfold unitsOfCode
  split
  next hsmall =>
    have hstep : stepExponent (code / 1) = 0 := by
      rw [Nat.div_one, stepExponent]
      by_cases hzero : code = 0
      · simp [hzero]
      · have hlog : code.log2 < 52 := (Nat.log2_lt hzero).2 hsmall
        omega
    have hround := roundQuotient_of_dvd code (d := 1) Nat.one_pos
    simp only [nearestCode, hstep]
    simpa using hround
  next hlarge =>
    -- above the first power of two a code is an exponent and the significand without its first bit
    have hq : 0 < code / codesPerExponent := Nat.div_pos (Nat.le_of_not_lt hlarge) (by decide)
    have hr : code % codesPerExponent < codesPerExponent := Nat.mod_lt _ (by decide)
    have hcode : codesPerExponent * (code / codesPerExponent) + code % codesPerExponent = code :=
      Nat.div_add_mod _ _
    obtain ⟨k, hk⟩ : ∃ k, code / codesPerExponent = k + 1 := ⟨_, (Nat.succ_pred_eq_of_pos hq).symm⟩
    rw [hk] at hcode ⊢
    generalize code % codesPerExponent = r at hr hcode ⊢
    have hstep : stepExponent ((codesPerExponent + r) * Nat.pow 2 k / 1) = k := by
      rw [Nat.div_one, stepExponent, log2_significand hr]
      omega
    simp only [nearestCode, Nat.add_sub_cancel, hstep]
    have hround := roundQuotient_of_dvd (codesPerExponent + r) (d := Nat.pow 2 k)
      (Nat.two_pow_pos k)
    rw [Nat.one_mul, hround, ← hcode, Nat.mul_succ, Nat.mul_comm k, Nat.add_assoc]

namespace Binary64

theorem ofRatio_of_nearestCode_eq {num den : Nat} {m : Magnitude} (negative : Bool)
    (h : nearestCode num den = m.code) : ofRatio negative num den = .finite negative m := by
  have hlt : nearestCode num den < infinityCode := by
    rw [h]
    exact m.code_lt
  unfold Binary64.ofRatio
  rw [dif_pos hlt]
  simp only [h]

end Binary64

end DeskCalculator
