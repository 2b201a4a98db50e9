import DeskCalculator.Proofs.Binary64.Nearest
import DeskCalculator.Proofs.Decimal.ReadBack
import Mathlib.Algebra.Order.Field.Power
import Mathlib.Algebra.Order.Ring.Rat
import Mathlib.Tactic.FieldSimp
import Mathlib.Tactic.Ring

/-!
# The fewest digits

The decimal that a magnitude is written as is the shortest that identifies it
(`Magnitude.isShortestOf_shortest`): it is read as the magnitude, none with fewer digits is, and of those with
as many digits none is nearer.

Only two decimals of each length are tried, the neighbours of the exact value. No other decimal of `n` digits
lies between them (`Magnitude.le_below_or_above_le`), and what is read as a magnitude is an interval around
it, since a larger decimal never has a smaller code (`Decimal.code_le_code`); so if any decimal of `n` digits
reads back, one of the neighbours does and is as near (`Magnitude.exists_neighbour_of_code_eq`). Seventeen
digits always do (`Magnitude.exists_neighbour_seventeen`): their grid is finer than that of the magnitudes.
-/

namespace DeskCalculator

theorem natCast_pow (a n : Nat) : ((Nat.pow a n : Nat) : ℚ) = (a : ℚ) ^ n := Nat.cast_pow a n

namespace Decimal

/-! ## The number that a decimal is -/

/-- The number that a decimal is. -/
def toRat (d : Decimal) : ℚ := d.coefficient * (10 : ℚ) ^ d.exponent

theorem toRat_mul_ten (c : Nat) (e : Int) : toRat ⟨c * 10, e⟩ = toRat ⟨c, e + 1⟩ := by
  simp only [toRat, Nat.cast_mul, Nat.cast_ofNat]
  rw [zpow_add_one₀ (by norm_num)]
  ring

theorem toRat_mul_pow (c n : Nat) (e : Int) : toRat ⟨c * Nat.pow 10 n, e⟩ = toRat ⟨c, e + n⟩ := by
  simp only [toRat, Nat.cast_mul, natCast_pow, Nat.cast_ofNat]
  rw [zpow_add₀ (by norm_num), zpow_natCast]
  ring

theorem toRat_withoutEndingZeros (d : Decimal) : d.withoutEndingZeros.toRat = d.toRat := by
  fun_induction withoutEndingZeros d with
  | case1 d h ih => rw [ih, ← toRat_mul_ten, Nat.div_mul_cancel (Nat.dvd_of_mod_eq_zero h.2)]
  | case2 => rfl

theorem toRat_unsignedValue_plain (d : Decimal) : (Literal.unsignedValue d.plain).toRat = d.toRat := by
  by_cases hexponent : 0 ≤ d.exponent
  · obtain ⟨⟨-, hdigits⟩, hvalue⟩ := plain_of_nonneg hexponent
    have hzero : (0 : Int) + d.exponent.toNat = d.exponent := by omega
    rw [Literal.unsignedValue_of_digits hdigits, hvalue, toRat_mul_pow, hzero]
  · obtain ⟨t, u, hplain, ⟨-, ht⟩, ⟨-, hu⟩, hvalue, hlength⟩ := plain_of_neg hexponent
    rw [hplain, Literal.unsignedValue_of_pointed ht hu, hvalue, hlength]

theorem numerator_eq (d : Decimal) :
    (d.numerator : ℚ) = d.toRat * (2 : ℚ) ^ unitExponent * d.denominator := by
  have hpow : (10 : ℚ) ^ d.exponent.toNat = (10 : ℚ) ^ d.exponent * 10 ^ (-d.exponent).toNat := by
    rw [← zpow_natCast, ← zpow_natCast, ← zpow_add₀ (by norm_num)]
    congr 1
    omega
  have hnum : (d.numerator : ℚ) = d.coefficient * 10 ^ d.exponent.toNat * 2 ^ unitExponent := by
    rw [numerator, Nat.cast_mul, Nat.cast_mul, natCast_pow, natCast_pow, Nat.cast_ofNat, Nat.cast_ofNat]
  have hden : (d.denominator : ℚ) = 10 ^ (-d.exponent).toNat := natCast_pow 10 _
  rw [hnum, hden, toRat, hpow]
  ring

theorem code_le_code {d d' : Decimal} (h : d.toRat ≤ d'.toRat) : d.code ≤ d'.code := by
  refine nearestCode_mono d.denominator_pos d'.denominator_pos ?_
  have hunit : (0 : ℚ) ≤ 2 ^ unitExponent := pow_nonneg (by norm_num) _
  have hnum := d.numerator_eq
  have hnum' := d'.numerator_eq
  generalize (2 : ℚ) ^ unitExponent = unit at *
  have hle : (d.numerator : ℚ) * d'.denominator ≤ d'.numerator * d.denominator := by
    calc (d.numerator : ℚ) * d'.denominator
        = d.toRat * (unit * d.denominator * d'.denominator) := by rw [hnum]; ring
      _ ≤ d'.toRat * (unit * d.denominator * d'.denominator) :=
        mul_le_mul_of_nonneg_right h
          (mul_nonneg (mul_nonneg hunit (Nat.cast_nonneg _)) (Nat.cast_nonneg _))
      _ = d'.numerator * d.denominator := by rw [hnum']; ring
  exact_mod_cast hle

theorem code_eq_code {d d' : Decimal} (h : d.toRat = d'.toRat) : d.code = d'.code :=
  Nat.le_antisymm (code_le_code h.le) (code_le_code h.ge)

theorem toRat_le_of_coefficient_le {c c' : Nat} (h : c ≤ c') (e : Int) : toRat ⟨c, e⟩ ≤ toRat ⟨c', e⟩ :=
  mul_le_mul_of_nonneg_right (Nat.cast_le.2 h) (zpow_nonneg (by norm_num) e)

theorem toRat_le_of_exponent_le (c : Nat) {e e' : Int} (h : e ≤ e') : toRat ⟨c, e⟩ ≤ toRat ⟨c, e'⟩ :=
  mul_le_mul_of_nonneg_left (zpow_le_zpow_right₀ (by norm_num) h) (Nat.cast_nonneg c)

theorem length_digits_le_iff {d : Decimal} {n : Nat} (hn : 0 < n) :
    d.digits.length ≤ n ↔ d.coefficient < Nat.pow 10 n := Nat.length_toDigits_le_iff (by decide) hn

theorem length_digits_pos (d : Decimal) : 0 < d.digits.length := Nat.length_toDigits_pos

theorem coefficient_withoutEndingZeros_le (d : Decimal) :
    d.withoutEndingZeros.coefficient ≤ d.coefficient := by
  fun_induction withoutEndingZeros d with
  | case1 d h ih => exact Nat.le_trans ih (Nat.div_le_self _ _)
  | case2 => exact Nat.le_refl _

/-- A power of ten needs one digit. -/
theorem coefficient_withoutEndingZeros_lt {d : Decimal} {n : Nat} (hn : 0 < n)
    (h : d.coefficient ≤ Nat.pow 10 n) : d.withoutEndingZeros.coefficient < Nat.pow 10 n := by
  rcases Nat.lt_or_eq_of_le h with hlt | heq
  · exact Nat.lt_of_le_of_lt d.coefficient_withoutEndingZeros_le hlt
  · obtain ⟨k, rfl⟩ := Nat.exists_eq_succ_of_ne_zero (Nat.ne_of_gt hn)
    have hpos : 0 < Nat.pow 10 k := Nat.pow_pos (by decide)
    change d.coefficient = Nat.pow 10 k * 10 at heq
    show _ < Nat.pow 10 k * 10
    rw [withoutEndingZeros, dif_pos ⟨by omega, by omega⟩]
    refine Nat.lt_of_le_of_lt (coefficient_withoutEndingZeros_le _) ?_
    show d.coefficient / 10 < _
    omega

end Decimal

namespace Magnitude

variable {m : Magnitude} {d : Decimal}

/-! ## The neighbours of the exact value -/

/-- The number that a magnitude is. -/
def toRat (m : Magnitude) : ℚ := m.units / 2 ^ unitExponent

/-- The worth of the last digit of an exact value. -/
def lastPlace : ℚ := (10 : ℚ) ^ (-(unitExponent : ℤ))

theorem lastPlace_pos : 0 < lastPlace := zpow_pos (by norm_num) _

theorem toRat_exactDecimal (m : Magnitude) : m.exactDecimal.toRat = m.toRat := by
  have hexact : (m.exactCoefficient : ℚ) = m.units * 5 ^ unitExponent := by
    rw [exactCoefficient, Nat.cast_mul, natCast_pow, Nat.cast_ofNat]
  have hplace : (5 : ℚ) ^ unitExponent * 10 ^ (-(unitExponent : ℤ)) = 1 / 2 ^ unitExponent := by
    generalize unitExponent = n
    rw [zpow_neg, zpow_natCast, show (10 : ℚ) = 5 * 2 by norm_num, mul_pow]
    field_simp
  show (m.exactCoefficient : ℚ) * 10 ^ (-(unitExponent : ℤ)) = m.units / 2 ^ unitExponent
  rw [hexact, mul_assoc, hplace, mul_one_div]

theorem toRat_eq (m : Magnitude) : m.toRat = m.exactCoefficient * lastPlace :=
  m.toRat_exactDecimal.symm

/-- The exact value with its last digits left out. -/
def below (m : Magnitude) (dropped : Nat) : Decimal :=
  ⟨m.exactCoefficient / Nat.pow 10 dropped, dropped - unitExponent⟩

/-- The next decimal with as many places. -/
def above (m : Magnitude) (dropped : Nat) : Decimal :=
  ⟨m.exactCoefficient / Nat.pow 10 dropped + 1, dropped - unitExponent⟩

theorem toRat_place (c dropped : Nat) : Decimal.toRat ⟨c, dropped - unitExponent⟩ =
    (c * Nat.pow 10 dropped : Nat) * lastPlace := by
  have hexponent : (dropped - unitExponent : ℤ) = -(unitExponent : ℤ) + dropped := by omega
  have hplace := Decimal.toRat_mul_pow c dropped (-(unitExponent : ℤ))
  rw [hexponent, ← hplace]
  rfl

theorem toRat_below (m : Magnitude) (dropped : Nat) : (m.below dropped).toRat =
    (m.exactCoefficient / Nat.pow 10 dropped * Nat.pow 10 dropped : Nat) * lastPlace :=
  toRat_place _ _

theorem toRat_above (m : Magnitude) (dropped : Nat) : (m.above dropped).toRat =
    ((m.exactCoefficient / Nat.pow 10 dropped + 1) * Nat.pow 10 dropped : Nat) * lastPlace :=
  toRat_place _ _

theorem toRat_below_le (m : Magnitude) (dropped : Nat) : (m.below dropped).toRat ≤ m.toRat := by
  rw [toRat_below, toRat_eq]
  exact mul_le_mul_of_nonneg_right (Nat.cast_le.2 (Nat.div_mul_le_self _ _)) lastPlace_pos.le

theorem toRat_le_above (m : Magnitude) (dropped : Nat) : m.toRat ≤ (m.above dropped).toRat := by
  have hstep : 0 < Nat.pow 10 dropped := Nat.pow_pos (by decide)
  rw [toRat_above, toRat_eq]
  refine mul_le_mul_of_nonneg_right (Nat.cast_le.2 (Nat.le_of_lt ?_)) lastPlace_pos.le
  exact Nat.lt_mul_of_div_lt (Nat.lt_succ_self _) hstep

/-- What lies between the exact value and a decimal that reads back reads back, too. -/
theorem code_eq_of_between {d' : Decimal} (hd : d.code = m.code)
    (h : d.toRat ≤ d'.toRat ∧ d'.toRat ≤ m.toRat ∨ m.toRat ≤ d'.toRat ∧ d'.toRat ≤ d.toRat) :
    d'.code = m.code := by
  rw [← m.toRat_exactDecimal] at h
  have hexact := m.code_exactDecimal
  rcases h with ⟨hlower, hupper⟩ | ⟨hlower, hupper⟩
  · exact Nat.le_antisymm (hexact ▸ Decimal.code_le_code hupper) (hd ▸ Decimal.code_le_code hlower)
  · exact Nat.le_antisymm (hd ▸ Decimal.code_le_code hupper) (hexact ▸ Decimal.code_le_code hlower)

/-- The number of digits of the exact value. -/
def places (m : Magnitude) : Nat := (Nat.toDigits 10 m.exactCoefficient).length

theorem exactCoefficient_pos (hm : m.code ≠ 0) : 0 < m.exactCoefficient := by
  have hpow (n : Nat) : 0 < Nat.pow 5 n := Nat.pow_pos (by decide)
  have hlt := unitsOfCode_strictMono (Nat.pos_of_ne_zero hm)
  exact Nat.mul_pos (Nat.lt_of_le_of_lt (Nat.zero_le _) hlt) (hpow _)

theorem exactCoefficient_lt (m : Magnitude) : m.exactCoefficient < Nat.pow 10 m.places :=
  (Nat.length_toDigits_le_iff (by decide) Nat.length_toDigits_pos).1 (Nat.le_refl _)

theorem pow_le_exactCoefficient (hm : m.code ≠ 0) {n : Nat} (h : n < m.places) :
    Nat.pow 10 n ≤ m.exactCoefficient := by
  cases n with
  | zero => exact exactCoefficient_pos hm
  | succ n =>
    refine Nat.le_of_not_lt fun hlt => ?_
    have hle := (Nat.length_toDigits_le_iff (b := 10) (by decide) (Nat.succ_pos n)).2 hlt
    exact absurd h (Nat.not_lt.2 hle)

theorem pow_mul_pow_le (hm : m.code ≠ 0) {k dropped : Nat} (h : k + dropped < m.places) :
    Nat.pow 10 k * Nat.pow 10 dropped ≤ m.exactCoefficient := by
  have hsum : Nat.pow 10 k * Nat.pow 10 dropped = Nat.pow 10 (k + dropped) :=
    (Nat.pow_add 10 k dropped).symm
  exact hsum ▸ pow_le_exactCoefficient hm h

/-- **No decimal of `n` digits lies between two neighbours that keep `n` digits.** -/
theorem le_below_or_above_le (hm : m.code ≠ 0) {n : Nat} (hn : 0 < n) (hlength : n < m.places)
    (hd : d.coefficient < Nat.pow 10 n) :
    d.toRat ≤ (m.below (m.places - n)).toRat ∨ (m.above (m.places - n)).toRat ≤ d.toRat := by
  obtain ⟨c, e⟩ := d
  generalize hdropped : m.places - n = dropped
  unfold below above
  generalize hgrid : (dropped - unitExponent : Int) = grid
  rcases Int.lt_or_le e grid with hsmall | hlarge
  · -- its last place is too small: the decimal is less than any with `n` digits on the grid
    obtain ⟨k, rfl⟩ := Nat.exists_eq_succ_of_ne_zero (Nat.ne_of_gt hn)
    refine .inl ?_
    have hfloor : Nat.pow 10 k ≤ m.exactCoefficient / Nat.pow 10 dropped :=
      (Nat.le_div_iff_mul_le (Nat.pow_pos (by decide))).2 (pow_mul_pow_le hm (by omega))
    calc Decimal.toRat ⟨c, e⟩ ≤ Decimal.toRat ⟨Nat.pow 10 k * 10, e⟩ :=
          Decimal.toRat_le_of_coefficient_le (Nat.le_of_lt hd) e
      _ = Decimal.toRat ⟨Nat.pow 10 k, e + 1⟩ := Decimal.toRat_mul_ten _ _
      _ ≤ Decimal.toRat ⟨Nat.pow 10 k, grid⟩ := Decimal.toRat_le_of_exponent_le _ (by omega)
      _ ≤ _ := Decimal.toRat_le_of_coefficient_le hfloor grid
  · -- it stands on the grid, where the neighbours are next to each other
    obtain ⟨t, rfl⟩ : ∃ t : Nat, e = grid + t := ⟨(e - grid).toNat, by omega⟩
    rw [← Decimal.toRat_mul_pow]
    rcases Nat.lt_or_ge (m.exactCoefficient / Nat.pow 10 dropped) (c * Nat.pow 10 t) with hlt | hle
    · exact .inr (Decimal.toRat_le_of_coefficient_le hlt grid)
    · exact .inl (Decimal.toRat_le_of_coefficient_le hle grid)

/-! ## The neighbour that is taken -/

/-- The distance of a decimal from a magnitude. -/
def distance (m : Magnitude) (d : Decimal) : ℚ := |d.toRat - m.toRat|

theorem distance_below (m : Magnitude) (dropped : Nat) : m.distance (m.below dropped) =
    (m.exactCoefficient % Nat.pow 10 dropped : Nat) * lastPlace := by
  rw [distance, abs_sub_comm, abs_of_nonneg (sub_nonneg.2 (m.toRat_below_le dropped)), toRat_below,
    toRat_eq, ← sub_mul]
  generalize m.exactCoefficient = exact
  congr 1
  rw [sub_eq_iff_eq_add', ← Nat.cast_add, Nat.div_add_mod']

theorem distance_above (m : Magnitude) (dropped : Nat) : m.distance (m.above dropped) =
    (Nat.pow 10 dropped - m.exactCoefficient % Nat.pow 10 dropped : Nat) * lastPlace := by
  rw [distance, abs_of_nonneg (sub_nonneg.2 (m.toRat_le_above dropped)), toRat_above, toRat_eq, ← sub_mul]
  generalize m.exactCoefficient = exact
  have hsum := Nat.div_add_mod' exact (Nat.pow 10 dropped)
  have hmod := Nat.mod_lt exact (show 0 < Nat.pow 10 dropped from Nat.pow_pos (by decide))
  congr 1
  rw [sub_eq_iff_eq_add', ← Nat.cast_add, Nat.succ_mul]
  congr 1
  omega

/-- Whether the exact value is nearer to the larger neighbour. -/
def prefersAbove (tie : Tie) (m : Magnitude) (dropped : Nat) : Bool :=
  let step := Nat.pow 10 dropped
  let rest := m.exactCoefficient % step
  step < 2 * rest || step == 2 * rest && (tie == .up || m.exactCoefficient / step % 2 == 1)

theorem neighbour?_eq (tie : Tie) (m : Magnitude) (dropped : Nat) :
    m.neighbour? tie m.exactCoefficient dropped =
      if m.isReadFrom (m.below dropped) then
        if m.isReadFrom (m.above dropped) && m.prefersAbove tie dropped then some (m.above dropped)
        else some (m.below dropped)
      else if m.isReadFrom (m.above dropped) then some (m.above dropped)
      else none := rfl

theorem isReadFrom_iff : m.isReadFrom d = true ↔ d.code = m.code := beq_iff_eq

theorem distance_le_of_prefersAbove (tie : Tie) (m : Magnitude) (dropped : Nat) :
    (m.prefersAbove tie dropped = true → m.distance (m.above dropped) ≤ m.distance (m.below dropped)) ∧
      (m.prefersAbove tie dropped = false → m.distance (m.below dropped) ≤ m.distance (m.above dropped)) := by
  have hle {a b : Nat} (h : a ≤ b) : (a : ℚ) * lastPlace ≤ b * lastPlace :=
    mul_le_mul_of_nonneg_right (Nat.cast_le.2 h) lastPlace_pos.le
  rw [distance_below, distance_above, prefersAbove]
  generalize m.exactCoefficient = exact
  have hmod := Nat.mod_lt exact (show 0 < Nat.pow 10 dropped from Nat.pow_pos (by decide))
  generalize Nat.pow 10 dropped = step at *
  constructor
  · intro hrule
    simp only [Bool.or_eq_true, Bool.and_eq_true, decide_eq_true_eq, beq_iff_eq] at hrule
    exact hle (by omega)
  · intro hrule
    simp only [Bool.or_eq_false_iff, decide_eq_false_iff_not] at hrule
    exact hle (by omega)

/-- The neighbour that is taken is one that reads back, and no other that does is nearer. -/
theorem neighbour?_eq_some {tie : Tie} {dropped : Nat} {c : Decimal}
    (h : m.neighbour? tie m.exactCoefficient dropped = some c) :
    (c = m.below dropped ∨ c = m.above dropped) ∧
      ((m.below dropped).code = m.code → m.distance c ≤ m.distance (m.below dropped)) ∧
        ((m.above dropped).code = m.code → m.distance c ≤ m.distance (m.above dropped)) := by
  obtain ⟨hyes, hno⟩ := distance_le_of_prefersAbove tie m dropped
  rw [neighbour?_eq] at h
  split at h
  next hbelow =>
    split at h
    next hrule =>
      obtain rfl := Option.some.inj h
      rw [Bool.and_eq_true] at hrule
      exact ⟨.inr rfl, fun _ => hyes hrule.2, fun _ => le_rfl⟩
    next hrule =>
      obtain rfl := Option.some.inj h
      refine ⟨.inl rfl, fun _ => le_rfl, fun habove => ?_⟩
      rw [isReadFrom_iff.2 habove, Bool.true_and, Bool.not_eq_true] at hrule
      exact hno hrule
  next hbelow =>
    split at h
    next habove =>
      obtain rfl := Option.some.inj h
      exact ⟨.inr rfl, fun hread => absurd (isReadFrom_iff.2 hread) hbelow, fun _ => le_rfl⟩
    next => cases h

theorem neighbour?_eq_none {tie : Tie} {dropped : Nat}
    (h : m.neighbour? tie m.exactCoefficient dropped = none) :
    (m.below dropped).code ≠ m.code ∧ (m.above dropped).code ≠ m.code := by
  rw [neighbour?_eq] at h
  split at h
  next => split at h <;> cases h
  next hbelow =>
    split at h
    next => cases h
    next habove =>
      exact ⟨fun hread => hbelow (isReadFrom_iff.2 hread), fun hread => habove (isReadFrom_iff.2 hread)⟩

/-! ## Where a neighbour reads back -/

/-- With all digits kept the first neighbour is the exact value. -/
theorem code_below_zero (m : Magnitude) : (m.below 0).code = m.code := by
  have hsame : m.below 0 = m.exactDecimal := by
    rw [below, exactDecimal]
    generalize m.exactCoefficient = exact
    rw [show Nat.pow 10 0 = 1 from rfl, Nat.div_one]
    simp
  rw [hsame, code_exactDecimal]

/-- A decimal of `n` digits that reads back has a neighbour of `n` digits that does, between it and the
exact value. -/
theorem exists_neighbour_of_code_eq (hm : m.code ≠ 0) {n : Nat} (hn : 0 < n) (hd : d.code = m.code)
    (hdigits : d.coefficient < Nat.pow 10 n) :
    (m.below (m.places - n)).code = m.code ∧ m.distance (m.below (m.places - n)) ≤ m.distance d ∨
      (m.above (m.places - n)).code = m.code ∧ m.distance (m.above (m.places - n)) ≤ m.distance d := by
  rcases Nat.lt_or_ge n m.places with hlength | hlength
  · have hbelow := m.toRat_below_le (m.places - n)
    have habove := m.toRat_le_above (m.places - n)
    rcases le_below_or_above_le hm hn hlength hdigits with hle | hle
    · refine .inl ⟨code_eq_of_between hd (.inl ⟨hle, hbelow⟩), ?_⟩
      rw [distance, distance, abs_sub_comm, abs_sub_comm d.toRat, abs_of_nonneg (sub_nonneg.2 hbelow),
        abs_of_nonneg (sub_nonneg.2 (hle.trans hbelow))]
      exact sub_le_sub_left hle _
    · refine .inr ⟨code_eq_of_between hd (.inr ⟨habove, hle⟩), ?_⟩
      rw [distance, distance, abs_of_nonneg (sub_nonneg.2 habove),
        abs_of_nonneg (sub_nonneg.2 (habove.trans hle))]
      exact sub_le_sub_right hle _
  · rw [Nat.sub_eq_zero_of_le hlength]
    refine .inl ⟨m.code_below_zero, ?_⟩
    have hzero : m.distance (m.below 0) = 0 := by
      rw [distance_below]
      generalize m.exactCoefficient = exact
      rw [show Nat.pow 10 0 = 1 from rfl, Nat.mod_one, Nat.cast_zero, zero_mul]
    rw [hzero]
    exact abs_nonneg _

theorem code_place (c : Nat) :
    (Decimal.mk c (-(unitExponent : Int))).code = nearestCode c (Nat.pow 5 unitExponent) := by
  have hpow (n : Nat) : 0 < Nat.pow 2 n := Nat.two_pow_pos n
  have hnum : (Decimal.mk c (-(unitExponent : Int))).numerator = c * Nat.pow 2 unitExponent := by
    rw [Decimal.numerator]
    generalize unitExponent = n
    have hzero : (-(n : Int)).toNat = 0 := by omega
    rw [hzero]
    exact congrArg (· * Nat.pow 2 n) (Nat.mul_one c)
  have hden : (Decimal.mk c (-(unitExponent : Int))).denominator =
      Nat.pow 5 unitExponent * Nat.pow 2 unitExponent := by
    rw [Decimal.denominator]
    generalize unitExponent = n
    rw [Int.neg_neg, Int.toNat_natCast]
    exact Nat.mul_pow 5 2 n
  rw [Decimal.code, hnum, hden, nearestCode_mul_right _ _ (hpow _)]

theorem code_eq_of_close {c : Nat}
    (h : Nat.pow 2 54 * ((m.exactCoefficient : Int) - c).natAbs < m.exactCoefficient) :
    (Decimal.mk c (-(unitExponent : Int))).code = m.code := by
  have hpow (n : Nat) : 0 < Nat.pow 5 n := Nat.pow_pos (by decide)
  rw [code_place]
  refine nearestCode_eq_of_offBy_lt (hpow _) ?_
  rw [offBy, ← Int.natCast_mul]
  exact h

theorem code_grid (c dropped : Nat) : (Decimal.mk c (dropped - unitExponent)).code =
    (Decimal.mk (c * Nat.pow 10 dropped) (-(unitExponent : Int))).code :=
  Decimal.code_eq_code (toRat_place c dropped)

/-- **Seventeen digits are enough.** -/
theorem exists_neighbour_seventeen (hm : m.code ≠ 0) :
    (m.below (m.places - 17)).code = m.code ∨ (m.above (m.places - 17)).code = m.code := by
  rcases Nat.lt_or_ge 17 m.places with hlength | hlength
  · generalize hdropped : m.places - 17 = dropped
    have hlarge : Nat.pow 10 16 * Nat.pow 10 dropped ≤ m.exactCoefficient :=
      pow_mul_pow_le hm (by omega)
    have hclose (c : Nat) := code_eq_of_close (m := m) (c := c)
    have hsum := Nat.div_add_mod' m.exactCoefficient (Nat.pow 10 dropped)
    have hmod := Nat.mod_lt m.exactCoefficient
      (show 0 < Nat.pow 10 dropped from Nat.pow_pos (by decide))
    rw [below, above, code_grid, code_grid]
    generalize m.exactCoefficient = exact at *
    rw [Nat.succ_mul]
    generalize Nat.pow 10 dropped = step at *
    generalize exact / step * step = floor at *
    generalize exact % step = rest at *
    change 10 ^ 16 * step ≤ exact at hlarge
    rcases Nat.lt_or_ge step (2 * rest) with hup | hdown
    · refine .inr (hclose _ ?_)
      show 2 ^ 54 * _ < _
      omega
    · refine .inl (hclose _ ?_)
      show 2 ^ 54 * _ < _
      omega
  · rw [Nat.sub_eq_zero_of_le hlength]
    exact .inl m.code_below_zero

/-! ## The shortest decimal -/

theorem exists_first_of_findSome? {α : Type} {f : Nat → Option α} {a : α} {start count : Nat}
    (h : (List.range' start count).findSome? f = some a) :
    ∃ n, start ≤ n ∧ f n = some a ∧ ∀ k, start ≤ k → k < n → f k = none := by
  induction count generalizing start with
  | zero => cases h
  | succ count ih =>
    rw [List.range'_succ, List.findSome?_cons] at h
    cases hstart : f start with
    | some b =>
      rw [hstart] at h
      obtain rfl := Option.some.inj h
      exact ⟨start, Nat.le_refl _, hstart, fun k hle hlt => absurd hlt (Nat.not_lt.2 hle)⟩
    | none =>
      rw [hstart] at h
      obtain ⟨n, hle, hn, hfirst⟩ := ih h
      refine ⟨n, Nat.le_of_succ_le hle, hn, fun k hk hlt => ?_⟩
      rcases Nat.eq_or_lt_of_le hk with rfl | hk
      · exact hstart
      · exact hfirst k hk hlt

/-- The shortest decimal is the first neighbour that reads back, without the zeros at its end. -/
theorem exists_shortest_eq (hm : m.code ≠ 0) (tie : Tie) : ∃ n c, 0 < n ∧
    m.neighbour? tie m.exactCoefficient (m.places - n) = some c ∧
      m.shortest tie = c.withoutEndingZeros ∧
        ∀ k, 0 < k → k < n → m.neighbour? tie m.exactCoefficient (m.places - k) = none := by
  rw [shortest, if_neg hm]
  show ∃ n c, _ ∧ _ ∧ (((List.range' 1 17).findSome? fun count =>
    m.neighbour? tie m.exactCoefficient (m.places - count)).getD _).withoutEndingZeros = _ ∧ _
  cases hfound : (List.range' 1 17).findSome? fun count =>
      m.neighbour? tie m.exactCoefficient (m.places - count) with
  | none =>
    have hlast := List.findSome?_eq_none_iff.1 hfound 17 (by simp)
    obtain ⟨hbelow, habove⟩ := neighbour?_eq_none hlast
    exact absurd (exists_neighbour_seventeen hm) (by simp [hbelow, habove])
  | some c =>
    obtain ⟨n, hpos, hn, hfirst⟩ := exists_first_of_findSome? hfound
    exact ⟨n, c, hpos, hn, rfl, hfirst⟩

theorem coefficient_neighbour_le {n : Nat} {c : Decimal}
    (h : c = m.below (m.places - n) ∨ c = m.above (m.places - n)) : c.coefficient ≤ Nat.pow 10 n := by
  have hlt : m.exactCoefficient / Nat.pow 10 (m.places - n) < Nat.pow 10 n := by
    refine Nat.div_lt_of_lt_mul (Nat.lt_of_lt_of_le m.exactCoefficient_lt ?_)
    have hsum : Nat.pow 10 (m.places - n) * Nat.pow 10 n = Nat.pow 10 (m.places - n + n) :=
      (Nat.pow_add 10 _ n).symm
    rw [hsum]
    exact Nat.pow_le_pow_right (by decide) (by omega)
  rcases h with rfl | rfl
  · exact Nat.le_of_lt hlt
  · exact hlt

end Magnitude

namespace Decimal

/-- The magnitude is next to the decimal, and has the even code if another one is as near. -/
def RoundsTo (d : Decimal) (m : Magnitude) : Prop :=
  ∀ other, offBy d.numerator d.denominator m.code ≤ offBy d.numerator d.denominator other ∧
    (offBy d.numerator d.denominator other = offBy d.numerator d.denominator m.code →
      other = m.code ∨ m.code % 2 = 0)

theorem roundsTo_iff {d : Decimal} {m : Magnitude} : d.RoundsTo m ↔ d.code = m.code :=
  (nearestCode_eq_iff d.denominator_pos).symm

/-- The decimal is rounded to the magnitude, none with fewer digits is, and none with as many is nearer. -/
structure IsShortestOf (d : Decimal) (m : Magnitude) : Prop where
  roundsTo : d.RoundsTo m
  length_le : ∀ d' : Decimal, d'.RoundsTo m → d.digits.length ≤ d'.digits.length
  distance_le : ∀ d' : Decimal, d'.RoundsTo m → d'.digits.length = d.digits.length →
    m.distance d ≤ m.distance d'

end Decimal

namespace Magnitude

theorem isShortestOf_zero {m : Magnitude} (hm : m.code = 0) : Decimal.IsShortestOf ⟨0, 0⟩ m where
  roundsTo := by
    rw [Decimal.roundsTo_iff, hm, Decimal.code, Decimal.numerator, Nat.zero_mul, Nat.zero_mul,
      nearestCode_zero]
  length_le d' _ := d'.length_digits_pos
  distance_le d' _ _ := by
    have hzero : m.toRat = 0 := by
      rw [toRat, units, hm]
      show ((0 : Nat) : ℚ) / _ = 0
      rw [Nat.cast_zero, zero_div]
    rw [distance, hzero, Decimal.toRat, Nat.cast_zero, zero_mul, sub_zero, abs_zero]
    exact abs_nonneg _

/-- **A magnitude is written as the shortest decimal that identifies it.** -/
theorem isShortestOf_shortest (tie : Tie) (m : Magnitude) : (m.shortest tie).IsShortestOf m := by
  by_cases hm : m.code = 0
  · rw [shortest, if_pos hm]
    exact isShortestOf_zero hm
  obtain ⟨n, c, hn, hc, hshortest, hnone⟩ := exists_shortest_eq hm tie
  obtain ⟨hcase, hbelow, habove⟩ := neighbour?_eq_some hc
  have hlength : (m.shortest tie).digits.length ≤ n := by
    rw [hshortest, Decimal.length_digits_le_iff hn]
    exact Decimal.coefficient_withoutEndingZeros_lt hn (coefficient_neighbour_le hcase)
  have hdistance : m.distance (m.shortest tie) = m.distance c := by
    rw [distance, distance, hshortest, Decimal.toRat_withoutEndingZeros]
  refine ⟨Decimal.roundsTo_iff.2 (m.code_shortest tie), fun d hd => ?_, fun d hd heq => ?_⟩
  · rw [Decimal.roundsTo_iff] at hd
    have hpos := d.length_digits_pos
    refine Nat.le_trans hlength (Nat.le_of_not_lt fun hlt => ?_)
    obtain ⟨hbelow', habove'⟩ := neighbour?_eq_none (hnone _ hpos hlt)
    have hdigits := (Decimal.length_digits_le_iff hpos).1 (Nat.le_refl d.digits.length)
    rcases exists_neighbour_of_code_eq hm hpos hd hdigits with ⟨hread, -⟩ | ⟨hread, -⟩
    · exact hbelow' hread
    · exact habove' hread
  · rw [Decimal.roundsTo_iff] at hd
    rw [hdistance]
    have hdigits := (Decimal.length_digits_le_iff hn).1 (heq ▸ hlength)
    rcases exists_neighbour_of_code_eq hm hn hd hdigits with ⟨hread, hle⟩ | ⟨hread, hle⟩
    · exact (hbelow hread).trans hle
    · exact (habove hread).trans hle

end Magnitude

end DeskCalculator
