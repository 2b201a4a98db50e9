import DeskCalculator.Proofs.Binary64.Grid
import Mathlib.Order.Monotone.Basic

/-!
# Rounding to the nearest magnitude

The code of a quotient is that of the magnitude next to it, and of two equally near ones that with the even
code (`nearestCode_nearest`). A quotient lies between two neighbours of the grid, and the midpoint between
them decides (`exists_floorCode`); so a code is not exceeded up to the midpoint behind it
(`nearestCode_le_iff`), and a larger quotient never has a smaller code (`nearestCode_mono`).
-/

namespace DeskCalculator

/-! ## The steps of the grid -/

/-- The distance from a magnitude to the next one. -/
def gridStep (code : Nat) : Nat := Nat.pow 2 (code / codesPerExponent - 1)

theorem codesPerExponent_pos : 0 < codesPerExponent := Nat.two_pow_pos 52

theorem lt_or_exists_exponent (code : Nat) : code < codesPerExponent ∨
    ∃ k r, r < codesPerExponent ∧ code = (k + 1) * codesPerExponent + r := by
  rcases Nat.lt_or_ge code codesPerExponent with hsmall | hlarge
  · exact .inl hsmall
  · obtain ⟨rest, rfl⟩ := Nat.exists_eq_add_of_le hlarge
    refine .inr ⟨rest / codesPerExponent, rest % codesPerExponent,
      Nat.mod_lt _ codesPerExponent_pos, ?_⟩
    rw [Nat.succ_mul, Nat.add_right_comm, Nat.div_add_mod', Nat.add_comm]

theorem unitsOfCode_of_lt {code : Nat} (h : code < codesPerExponent) : unitsOfCode code = code :=
  if_pos h

theorem gridStep_of_lt {code : Nat} (h : code < codesPerExponent) : gridStep code = 1 :=
  congrArg (fun n => Nat.pow 2 (n - 1)) (Nat.div_eq_of_lt h)

theorem gridStep_exponent (k : Nat) {r : Nat} (hr : r < codesPerExponent) :
    gridStep ((k + 1) * codesPerExponent + r) = Nat.pow 2 k := by
  rw [gridStep, Nat.add_comm, Nat.add_mul_div_right _ _ codesPerExponent_pos, Nat.div_eq_of_lt hr,
    Nat.zero_add, Nat.add_sub_cancel]

theorem gridStep_pos (code : Nat) : 0 < gridStep code := Nat.two_pow_pos _

theorem unitsOfCode_succ (code : Nat) :
    unitsOfCode (code + 1) = unitsOfCode code + gridStep code := by
  rcases lt_or_exists_exponent code with hsmall | ⟨k, r, hr, rfl⟩
  · rw [unitsOfCode_of_lt hsmall, gridStep_of_lt hsmall]
    rcases Nat.lt_or_ge (code + 1) codesPerExponent with hnext | hnext
    · exact unitsOfCode_of_lt hnext
    · have hfirst : code + 1 = (0 + 1) * codesPerExponent + 0 := by omega
      refine (congrArg unitsOfCode hfirst).trans ((unitsOfCode_exponent 0 codesPerExponent_pos).trans ?_)
      show (codesPerExponent + 0) * 1 = code + 1
      omega
  · rw [unitsOfCode_exponent k hr, gridStep_exponent k hr]
    rcases Nat.lt_or_ge (r + 1) codesPerExponent with hnext | hnext
    · rw [Nat.add_assoc, unitsOfCode_exponent k hnext, ← Nat.add_assoc, Nat.succ_mul]
    · -- the significand is full, and the next power of two begins
      have hfull : (k + 1) * codesPerExponent + r + 1 = (k + 1 + 1) * codesPerExponent + 0 := by
        rw [Nat.succ_mul (k + 1)]
        omega
      have hsum : codesPerExponent + r + 1 = 2 * codesPerExponent := by omega
      rw [hfull, unitsOfCode_exponent (k + 1) codesPerExponent_pos]
      show (codesPerExponent + 0) * 2 ^ (k + 1) = (codesPerExponent + r) * 2 ^ k + 2 ^ k
      rw [← Nat.succ_mul, Nat.succ_eq_add_one, hsum, Nat.pow_succ, Nat.add_zero, Nat.mul_comm 2,
        Nat.mul_assoc, Nat.mul_comm (2 ^ k)]

theorem unitsOfCode_strictMono : StrictMono unitsOfCode :=
  strictMono_nat_of_lt_succ fun code => by
    rw [unitsOfCode_succ]
    exact Nat.lt_add_of_pos_right (gridStep_pos code)

/-- A step of the grid is not small beside the magnitude behind it. -/
theorem unitsOfCode_succ_le (code : Nat) : unitsOfCode (code + 1) ≤ Nat.pow 2 53 * gridStep code := by
  rw [unitsOfCode_succ]
  rcases lt_or_exists_exponent code with hsmall | ⟨k, r, hr, rfl⟩
  · rw [unitsOfCode_of_lt hsmall, gridStep_of_lt hsmall]
    show code + 1 ≤ 2 ^ 53 * 1
    change code < 2 ^ 52 at hsmall
    omega
  · rw [unitsOfCode_exponent k hr, gridStep_exponent k hr]
    show (codesPerExponent + r) * 2 ^ k + 2 ^ k ≤ 2 ^ 53 * 2 ^ k
    rw [← Nat.succ_mul]
    change r < 2 ^ 52 at hr
    exact Nat.mul_le_mul_right _ (show 2 ^ 52 + r + 1 ≤ 2 ^ 53 by omega)

/-- With a full significand, or without an exponent, the grid is a ruler. -/
theorem unitsOfCode_ruler {e n : Nat} (hn : n ≤ 2 * codesPerExponent)
    (he : e = 0 ∨ codesPerExponent ≤ n) : unitsOfCode (e * codesPerExponent + n) = n * Nat.pow 2 e := by
  rcases Nat.lt_or_ge n codesPerExponent with hsmall | hlarge
  · obtain rfl := he.resolve_right (Nat.not_le.2 hsmall)
    rw [Nat.zero_mul, Nat.zero_add, unitsOfCode_of_lt hsmall]
    exact (Nat.mul_one n).symm
  · obtain ⟨r, rfl⟩ := Nat.exists_eq_add_of_le hlarge
    rcases Nat.lt_or_ge r codesPerExponent with hr | hr
    · rw [← Nat.add_assoc, ← Nat.succ_mul]
      exact unitsOfCode_exponent e hr
    · obtain rfl : r = codesPerExponent := by omega
      have hnext : e * codesPerExponent + (codesPerExponent + codesPerExponent) =
          (e + 1 + 1) * codesPerExponent + 0 := by
        rw [Nat.succ_mul (e + 1), Nat.succ_mul e]
        omega
      rw [hnext, unitsOfCode_exponent (e + 1) codesPerExponent_pos]
      show (codesPerExponent + 0) * 2 ^ (e + 1) = (codesPerExponent + codesPerExponent) * 2 ^ e
      rw [Nat.add_zero, Nat.pow_succ, ← Nat.two_mul, Nat.mul_comm 2, Nat.mul_assoc,
        Nat.mul_comm (2 ^ e)]

/-! ## Between two neighbours -/

theorem significand_of_quotient (w : Nat) :
    w / Nat.pow 2 (stepExponent w) < 2 * codesPerExponent ∧
      (stepExponent w = 0 ∨ codesPerExponent ≤ w / Nat.pow 2 (stepExponent w)) := by
  show w / 2 ^ stepExponent w < 2 ^ 53 ∧ (stepExponent w = 0 ∨ 2 ^ 52 ≤ w / 2 ^ stepExponent w)
  constructor
  · rw [Nat.div_lt_iff_lt_mul (Nat.two_pow_pos _), ← Nat.pow_add]
    refine Nat.lt_of_lt_of_le Nat.lt_log2_self (Nat.pow_le_pow_right (by decide) ?_)
    rw [stepExponent]
    omega
  · rcases Nat.lt_or_ge w.log2 52 with hsmall | hlarge
    · exact .inl (Nat.sub_eq_zero_of_le (Nat.le_of_lt hsmall))
    · have hne : w ≠ 0 := by
        rintro rfl
        simp at hlarge
      refine .inr ((Nat.le_div_iff_mul_le (Nat.two_pow_pos _)).2 ?_)
      have hexponent : 52 + stepExponent w = w.log2 := by
        rw [stepExponent]
        omega
      rw [← Nat.pow_add, hexponent]
      exact Nat.log2_self_le hne

/-- A quotient lies between two neighbours of the grid and is rounded to one of them, as it lies to their
midpoint. -/
theorem exists_floorCode (num : Nat) {den : Nat} (hden : 0 < den) :
    ∃ code, unitsOfCode code * den ≤ num ∧ num < unitsOfCode (code + 1) * den ∧
      nearestCode num den =
        if (unitsOfCode code + unitsOfCode (code + 1)) * den < 2 * num ∨
            (unitsOfCode code + unitsOfCode (code + 1)) * den = 2 * num ∧ code % 2 = 1 then code + 1
        else code := by
  obtain ⟨hlt, hruler⟩ := significand_of_quotient (num / den)
  generalize he : stepExponent (num / den) = e at hlt hruler
  have hround : nearestCode num den = e * codesPerExponent + roundQuotient num (den * Nat.pow 2 e) := by
    rw [nearestCode, he]
  have hscale : 0 < Nat.pow 2 e := Nat.two_pow_pos e
  have hunits {n : Nat} (hn : n ≤ 2 * codesPerExponent) (h : e = 0 ∨ codesPerExponent ≤ n) :
      unitsOfCode (e * codesPerExponent + n) * den = den * Nat.pow 2 e * n := by
    rw [unitsOfCode_ruler hn h, Nat.mul_comm den, Nat.mul_comm n, Nat.mul_right_comm]
  generalize Nat.pow 2 e = scale at *
  rw [Nat.div_div_eq_div_mul] at hlt hruler
  have hsum := Nat.div_add_mod num (den * scale)
  have hmod := Nat.mod_lt num (Nat.mul_pos hden hscale)
  unfold roundQuotient at hround
  generalize num / (den * scale) = q at *
  generalize num % (den * scale) = left at *
  have hfloor := hunits (Nat.le_of_lt hlt) hruler
  have hnext := hunits hlt (hruler.imp_right fun h => Nat.le_succ_of_le h)
  rw [Nat.mul_succ, Nat.succ_eq_add_one, ← Nat.add_assoc] at hnext
  have hparity : (e * codesPerExponent + q) % 2 = q % 2 := by
    have heven : e * codesPerExponent = 2 * (e * 2 ^ 51) := by
      show e * 2 ^ 52 = _
      omega
    rw [heven, Nat.mul_add_mod]
  refine ⟨e * codesPerExponent + q, by omega, by omega, ?_⟩
  rw [hround, Nat.add_mul, hfloor, hnext, hparity]
  split
  next hup => rw [if_pos (by omega), Nat.add_assoc]
  next hdown => rw [if_neg (by omega)]

/-! ## The nearest magnitude -/

theorem nearestCode_le_iff {num den code : Nat} (hden : 0 < den) :
    nearestCode num den ≤ code ↔
      2 * num < (unitsOfCode code + unitsOfCode (code + 1)) * den ∨
        2 * num = (unitsOfCode code + unitsOfCode (code + 1)) * den ∧ code % 2 = 0 := by
  obtain ⟨floor, hle, hlt, hcode⟩ := exists_floorCode num hden
  have hmono {a b : Nat} (h : a ≤ b) : unitsOfCode a * den ≤ unitsOfCode b * den :=
    Nat.mul_le_mul_right den (unitsOfCode_strictMono.monotone h)
  have hstrict := Nat.mul_lt_mul_of_pos_right (unitsOfCode_strictMono (Nat.lt_add_one code)) hden
  rw [Nat.add_mul] at hcode ⊢
  rw [hcode]
  rcases Nat.lt_trichotomy code floor with hbelow | rfl | habove
  · have hfloor := hmono (show code + 1 ≤ floor from hbelow)
    refine iff_of_false ?_ (by omega)
    split <;> omega
  · split
    next hup => exact iff_of_false (by omega) (by omega)
    next hdown => exact iff_of_true (Nat.le_refl _) (by omega)
  · have hnext := hmono (show floor + 1 ≤ code from habove)
    refine iff_of_true ?_ (by omega)
    split <;> omega

theorem nearestCode_mono {num den num' den' : Nat} (hden : 0 < den) (hden' : 0 < den')
    (h : num * den' ≤ num' * den) : nearestCode num den ≤ nearestCode num' den' := by
  have hself := (nearestCode_le_iff hden').1 (Nat.le_refl (nearestCode num' den'))
  rw [nearestCode_le_iff hden]
  generalize unitsOfCode (nearestCode num' den') + unitsOfCode (nearestCode num' den' + 1) = sum at *
  -- both sides are compared over the product of the denominators
  have hscale : 2 * num * den' ≤ 2 * num' * den := by
    rw [Nat.mul_assoc, Nat.mul_assoc]
    exact Nat.mul_le_mul_left 2 h
  have hcomm : sum * den' * den = sum * den * den' := Nat.mul_right_comm _ _ _
  rcases hself with hlt | ⟨heq, heven⟩
  · have hbelow : 2 * num * den' < sum * den * den' :=
      hcomm ▸ Nat.lt_of_le_of_lt hscale (Nat.mul_lt_mul_of_pos_right hlt hden)
    exact .inl (Nat.lt_of_mul_lt_mul_right hbelow)
  · have hbelow : 2 * num * den' ≤ sum * den * den' := by
      rw [← hcomm, ← heq]
      exact hscale
    rcases Nat.lt_or_eq_of_le (Nat.le_of_mul_le_mul_right hbelow hden') with hlt | heq'
    · exact .inl hlt
    · exact .inr ⟨heq', heven⟩

/-- How far a magnitude is from a quotient, over the denominator. -/
def offBy (num den code : Nat) : Nat := ((unitsOfCode code * den : Int) - num).natAbs

/-- **The code of a quotient is that of a nearest magnitude, and if there are two of them the even one.** -/
theorem nearestCode_nearest {num den : Nat} (hden : 0 < den) (code : Nat) :
    offBy num den (nearestCode num den) ≤ offBy num den code ∧
      (offBy num den code = offBy num den (nearestCode num den) →
        code = nearestCode num den ∨ nearestCode num den % 2 = 0) := by
  obtain ⟨floor, hle, hlt, hcode⟩ := exists_floorCode num hden
  rw [Nat.add_mul] at hcode
  have hmono {a b : Nat} (h : a < b) : unitsOfCode a * den < unitsOfCode b * den :=
    Nat.mul_lt_mul_of_pos_right (unitsOfCode_strictMono h) hden
  -- the neighbours are nearer than all other magnitudes
  have hplace : code = floor ∨ code = floor + 1 ∨
      unitsOfCode code * den < unitsOfCode floor * den ∨
        unitsOfCode (floor + 1) * den < unitsOfCode code * den := by
    rcases Nat.lt_trichotomy code floor with hbelow | heq | habove
    · exact .inr (.inr (.inl (hmono hbelow)))
    · exact .inl heq
    · rcases Nat.lt_or_eq_of_le (Nat.succ_le_of_lt habove) with hlarger | heq
      · exact .inr (.inr (.inr (hmono hlarger)))
      · exact .inr (.inl heq.symm)
  simp only [offBy, ← Int.natCast_mul]
  rw [hcode]
  split
  next hup => rcases hplace with rfl | rfl | hplace | hplace <;> omega
  next hdown => rcases hplace with rfl | rfl | hplace | hplace <;> omega

theorem offBy_lt_of_between (num : Nat) {den a b c : Nat} (hden : 0 < den) (hab : a < b) (hbc : b < c) :
    offBy num den b < offBy num den a ∨ offBy num den b < offBy num den c := by
  have hmono {a b : Nat} (h : a < b) : unitsOfCode a * den < unitsOfCode b * den :=
    Nat.mul_lt_mul_of_pos_right (unitsOfCode_strictMono h) hden
  have hlower := hmono hab
  have hupper := hmono hbc
  simp only [offBy, ← Int.natCast_mul]
  omega

/-- No other rule of rounding takes a nearest magnitude, and the even one of two. -/
theorem nearestCode_eq_iff {num den code : Nat} (hden : 0 < den) :
    nearestCode num den = code ↔ ∀ other, offBy num den code ≤ offBy num den other ∧
      (offBy num den other = offBy num den code → other = code ∨ code % 2 = 0) := by
  constructor
  · rintro rfl
    exact nearestCode_nearest hden
  · intro h
    -- two different codes that are nearest are even, and one between them is nearer
    have hnearest := @nearestCode_nearest num den hden
    generalize nearestCode num den = nearest at *
    have hle := (hnearest code).1
    have hge := (h nearest).1
    have htie := (hnearest code).2 (by omega)
    have htie' := (h nearest).2 (by omega)
    rcases Nat.lt_trichotomy nearest code with hlt | heq | hlt
    · have hmiddle := (hnearest (nearest + 1)).1
      rcases offBy_lt_of_between num hden (Nat.lt_add_one nearest)
        (show nearest + 1 < code by omega) with hless | hless <;> omega
    · exact heq
    · have hmiddle := (hnearest (code + 1)).1
      rcases offBy_lt_of_between num hden (Nat.lt_add_one code)
        (show code + 1 < nearest by omega) with hless | hless <;> omega

theorem nearestCode_eq_of_offBy_lt {num den code : Nat} (hden : 0 < den)
    (h : Nat.pow 2 54 * offBy num den code < unitsOfCode code * den) : nearestCode num den = code := by
  have hstep (c : Nat) : unitsOfCode (c + 1) * den ≤ 2 ^ 53 * (gridStep c * den) := by
    rw [← Nat.mul_assoc]
    exact Nat.mul_le_mul_right den (unitsOfCode_succ_le c)
  have hsucc (c : Nat) : unitsOfCode (c + 1) * den = unitsOfCode c * den + gridStep c * den := by
    rw [unitsOfCode_succ, Nat.add_mul]
  change 2 ^ 54 * ((unitsOfCode code * den : Int) - num).natAbs < unitsOfCode code * den at h
  rw [← Int.natCast_mul] at h
  have hupper := hstep code
  have hnext := hsucc code
  refine Nat.le_antisymm ((nearestCode_le_iff hden).2 (.inl ?_)) ?_
  · rw [Nat.add_mul]
    omega
  · cases code with
    | zero => exact Nat.zero_le _
    | succ code =>
      have hlower := hstep code
      have hprevious := hsucc code
      refine Nat.lt_of_not_le fun hle => ?_
      rw [nearestCode_le_iff hden, Nat.add_mul] at hle
      omega

end DeskCalculator
