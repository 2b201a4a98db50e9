import DeskCalculator.Proofs.Decimal.Shortest

/-!
# Powers of ten

In general style a finite number is written with all its places or, where that grows long, with a power of ten.
Both texts have the digits of one shortest decimal and stand for the same number (`writtenNumber_general`), so
that no two numbers are written alike (`general_exact`), a zero with a sign and one without it apart.

What a text stands for is said by a reading of it as a rational number (`writtenNumber`), which neither
style is defined with.
-/

namespace DeskCalculator

/-! ## The number that is written -/

/-- A sign as a factor. -/
def signFactor (negative : Bool) : ℚ := if negative then -1 else 1

theorem abs_signFactor (negative : Bool) : |signFactor negative| = 1 := by
  cases negative <;> simp [signFactor]

theorem signFactor_injective {negative negative' : Bool} (h : signFactor negative = signFactor negative') :
    negative = negative' := by
  have hne : (-1 : ℚ) ≠ 1 := by decide
  cases negative with
  | false =>
    cases negative' with
    | false => rfl
    | true => exact absurd h.symm hne
  | true =>
    cases negative' with
    | false => exact absurd h hne
    | true => rfl

/-- A whole number with a sign or none in front. -/
def writtenPower (t : Text) : Int :=
  let (negative, digits) := Literal.splitSign t
  if negative then -(Nat.ofDigitChars 10 digits 0 : Int) else Nat.ofDigitChars 10 digits 0

/-- The number that a text without a sign stands for: a literal, and an `e` with a power of ten or none. -/
def unsignedNumber (t : Text) : ℚ :=
  (Literal.unsignedValue (t.takeWhile (· != 'e'))).toRat *
    10 ^ writtenPower ((t.dropWhile (· != 'e')).drop 1)

/-- The number that a text stands for, with a sign or none in front. -/
def writtenNumber (t : Text) : ℚ :=
  let (negative, body) := Literal.splitSign t
  signFactor negative * unsignedNumber body

theorem takeWhile_dropWhile_mark {t rest : Text} (ht : 'e' ∉ t) (hrest : ∀ c ∈ rest.head?, c = 'e') :
    (t ++ rest).takeWhile (· != 'e') = t ∧ (t ++ rest).dropWhile (· != 'e') = rest := by
  have hall : ∀ c ∈ t, (c != 'e') = true := fun c hc => by
    rw [bne_iff_ne]
    rintro rfl
    exact ht hc
  have hcut : rest.takeWhile (· != 'e') = [] ∧ rest.dropWhile (· != 'e') = rest := by
    cases rest with
    | nil => exact ⟨rfl, rfl⟩
    | cons c rest =>
      obtain rfl := hrest c rfl
      exact ⟨List.takeWhile_cons_of_neg (by decide), List.dropWhile_cons_of_neg (by decide)⟩
  rw [List.takeWhile_append_of_pos hall, List.dropWhile_append_of_pos hall, hcut.1, hcut.2, List.append_nil]
  exact ⟨rfl, rfl⟩

theorem unsignedNumber_append {t rest : Text} (ht : 'e' ∉ t)
    (hrest : ∀ c ∈ rest.head?, c = 'e') :
    unsignedNumber (t ++ rest) = (Literal.unsignedValue t).toRat * 10 ^ writtenPower (rest.drop 1) := by
  obtain ⟨htake, hdrop⟩ := takeWhile_dropWhile_mark ht hrest
  rw [unsignedNumber, htake, hdrop]

theorem unsignedNumber_of_not_mem {t : Text} (ht : 'e' ∉ t) :
    unsignedNumber t = (Literal.unsignedValue t).toRat := by
  have hpower : writtenPower [] = 0 := rfl
  have hnumber : unsignedNumber (t ++ []) = _ := unsignedNumber_append ht nofun
  rwa [List.append_nil, List.drop_nil, hpower, zpow_zero, mul_one] at hnumber

theorem splitSign_cons_of_isDigit {c : Char} (hc : c.isDigit = true) (t : Text) :
    Literal.splitSign (c :: t) = (false, c :: t) := by
  unfold Literal.splitSign
  split
  next h =>
    obtain rfl := (List.cons.inj h).1
    cases hc
  next h =>
    obtain rfl := (List.cons.inj h).1
    cases hc
  next => rfl

theorem writtenNumber_signed (negative : Bool) {c : Char} (hc : c.isDigit = true) (t : Text) :
    writtenNumber (Binary64.signed negative (c :: t)) = signFactor negative * unsignedNumber (c :: t) := by
  cases negative with
  | false =>
    show writtenNumber (c :: t) = _
    rw [writtenNumber, splitSign_cons_of_isDigit hc]
  | true => rfl

/-! ## Digits -/

theorem ne_zero_of_head?_toDigits {n : Nat} (hn : 0 < n) {c : Char}
    (hc : (Nat.toDigits 10 n).head? = some c) : c ≠ '0' := by
  induction n using Nat.strongRecOn with
  | ind n ih =>
    rw [Nat.toDigits_eq_if (by decide)] at hc
    split at hc
    next hlt =>
      obtain rfl := Option.some.inj hc
      rw [Ne, Nat.digitChar_eq_zero]
      omega
    next hge =>
      have hhead : (Nat.toDigits 10 (n / 10)).head? = some c := by
        obtain ⟨d, ds, hds⟩ := List.exists_cons_of_ne_nil (Nat.toDigits_ne_nil (b := 10) (n := n / 10))
        rw [hds] at hc ⊢
        exact hc
      exact ih (n / 10) (by omega) (by omega) hhead

theorem writtenPower_toDigits (k : Int) (zeros : Nat) :
    writtenPower ((if k < 0 then '-' else '+') ::
      (List.replicate zeros '0' ++ Nat.toDigits 10 k.natAbs)) = k := by
  have hdigits : Nat.ofDigitChars 10 (List.replicate zeros '0' ++ Nat.toDigits 10 k.natAbs) 0 = k.natAbs := by
    rw [Nat.ofDigitChars_append, Nat.ofDigitChars_replicate_zero, Nat.mul_zero, Nat.ofDigitChars_ten_toDigits]
  generalize List.replicate zeros '0' ++ Nat.toDigits 10 k.natAbs = digits at hdigits
  by_cases hk : k < 0
  · rw [if_pos hk]
    show -((Nat.ofDigitChars 10 digits 0 : Nat) : Int) = k
    omega
  · rw [if_neg hk]
    show ((Nat.ofDigitChars 10 digits 0 : Nat) : Int) = k
    omega

/-! ## Decimals with a power of ten -/

namespace Decimal

/-- A sign at most, a digit other than zero, a point with digits behind it or none, and a power of ten that has
a sign and two or more digits. -/
def IsScientific (t : Text) : Prop :=
  ∃ (sign : Text) (first : Char) (places : Text) (powerSign : Char) (power : Text),
    t = sign ++ first :: (places ++ 'e' :: powerSign :: power) ∧ (sign = [] ∨ sign = ['-']) ∧
      first.isDigit = true ∧ first ≠ '0' ∧ (places = [] ∨ ∃ u, IsDigits u ∧ places = '.' :: u) ∧
        (powerSign = '+' ∨ powerSign = '-') ∧ (∀ c ∈ power, c.isDigit = true) ∧ 2 ≤ power.length

theorem IsScientific.mark_mem {t : Text} (h : IsScientific t) : 'e' ∈ t := by
  obtain ⟨sign, first, places, powerSign, power, rfl, -⟩ := h
  simp

variable (d : Decimal)

/-- The mantissa has the digits of the decimal, with a point behind the first of several. -/
theorem exists_mantissa_eq : ∃ first u, d.digits = first :: u ∧ first.isDigit = true ∧
    (∀ c ∈ u, c.isDigit = true) ∧ (0 < d.coefficient → first ≠ '0') ∧
      d.mantissa = first :: if u = [] then [] else '.' :: u := by
  obtain ⟨first, u, hdigits⟩ := List.exists_cons_of_ne_nil d.digits_ne_nil
  have hall : ∀ c ∈ first :: u, c.isDigit = true := fun c hc => isDigit_of_mem_digits (hdigits ▸ hc)
  refine ⟨first, u, hdigits, hall first List.mem_cons_self, fun c hc => hall c (List.mem_cons_of_mem first hc),
    fun hpos => ne_zero_of_head?_toDigits hpos ?_, ?_⟩
  · show d.digits.head? = some first
    rw [hdigits]
    rfl
  · rw [mantissa, hdigits]
    cases u with
    | nil => rfl
    | cons c u => rfl

theorem unsignedValue_mantissa :
    Literal.unsignedValue d.mantissa = ⟨d.coefficient, -(d.digits.length - 1 : Int)⟩ := by
  obtain ⟨first, u, hdigits, hfirst, hu, -, hmantissa⟩ := d.exists_mantissa_eq
  have hone : ∀ c ∈ [first], c.isDigit = true := by
    intro c hc
    rwa [List.mem_singleton.1 hc]
  have hvalue := d.ofDigitChars_digits
  rw [hmantissa, hdigits]
  rw [hdigits] at hvalue
  by_cases hnil : u = []
  · subst hnil
    rw [if_pos rfl, Literal.unsignedValue_of_digits hone, hvalue]
    rfl
  · rw [if_neg hnil, ← List.singleton_append, Literal.unsignedValue_of_pointed hone hu, List.singleton_append,
      hvalue, List.length_cons]
    congr 1
    omega

theorem isUnsigned_mantissa : Literal.isUnsigned d.mantissa = true := by
  obtain ⟨first, u, -, hfirst, hu, -, hmantissa⟩ := d.exists_mantissa_eq
  have hone : ∀ c ∈ [first], c.isDigit = true := by
    intro c hc
    rwa [List.mem_singleton.1 hc]
  rw [hmantissa, ← List.singleton_append]
  split
  next => exact Literal.isUnsigned_of_digits (List.cons_ne_nil _ _) hone
  next => exact Literal.isUnsigned_of_pointed (List.cons_ne_nil _ _) hone hu

theorem mark_not_mem_mantissa : 'e' ∉ d.mantissa := by
  obtain ⟨first, u, -, hfirst, hu, -, hmantissa⟩ := d.exists_mantissa_eq
  rw [hmantissa]
  intro hmem
  rcases List.mem_cons.1 hmem with rfl | hmem
  · cases hfirst
  · split at hmem
    next => cases hmem
    next =>
      rcases List.mem_cons.1 hmem with h | hmem
      · cases h
      · cases hu _ hmem

theorem mark_not_mem_plain : 'e' ∉ d.plain := by
  intro hmem
  rcases isDigit_or_eq_of_mem_plain hmem with h | h
  · cases h
  · cases h

theorem mark_not_mem_signed_plain (negative : Bool) : 'e' ∉ Binary64.signed negative d.plain := by
  intro hmem
  rcases Binary64.mem_signed hmem with h | h
  · cases h
  · exact d.mark_not_mem_plain h

theorem unsignedNumber_scientific (width : Nat) : unsignedNumber (d.scientific width) = d.toRat := by
  rw [scientific, unsignedNumber_append d.mark_not_mem_mantissa (by simp), unsignedValue_mantissa]
  rw [List.drop_succ_cons, List.drop_zero, writtenPower_toDigits]
  have hsum : -(d.digits.length - 1 : Int) + d.leadingExponent = d.exponent := by
    rw [leadingExponent]
    omega
  show (d.coefficient : ℚ) * 10 ^ (-(d.digits.length - 1 : Int)) * 10 ^ d.leadingExponent =
    d.coefficient * 10 ^ d.exponent
  rw [mul_assoc, ← zpow_add₀ (by norm_num), hsum]

theorem unsignedNumber_plain : unsignedNumber d.plain = d.toRat := by
  rw [unsignedNumber_of_not_mem d.mark_not_mem_plain, toRat_unsignedValue_plain]

theorem exists_plain_eq_cons : ∃ c t, d.plain = c :: t ∧ c.isDigit = true := by
  by_cases hexponent : 0 ≤ d.exponent
  · obtain ⟨⟨hne, hdigits⟩, -⟩ := plain_of_nonneg hexponent
    obtain ⟨c, t, ht⟩ := List.exists_cons_of_ne_nil hne
    exact ⟨c, t, ht, hdigits c (by simp [ht])⟩
  · obtain ⟨u, v, hplain, ⟨hne, hu⟩, -⟩ := plain_of_neg hexponent
    obtain ⟨c, t, rfl⟩ := List.exists_cons_of_ne_nil hne
    exact ⟨c, t ++ '.' :: v, by simp [hplain], hu c List.mem_cons_self⟩

theorem writtenNumber_signed_plain (negative : Bool) :
    writtenNumber (Binary64.signed negative d.plain) = signFactor negative * d.toRat := by
  obtain ⟨c, t, hplain, hc⟩ := d.exists_plain_eq_cons
  rw [hplain, writtenNumber_signed negative hc, ← hplain, unsignedNumber_plain]

theorem writtenNumber_signed_scientific (negative : Bool) (width : Nat) :
    writtenNumber (Binary64.signed negative (d.scientific width)) = signFactor negative * d.toRat := by
  obtain ⟨first, u, -, hfirst, -, -, hmantissa⟩ := d.exists_mantissa_eq
  have hcons : ∃ t, d.scientific width = first :: t := by
    rw [scientific, hmantissa]
    exact ⟨_, rfl⟩
  obtain ⟨t, ht⟩ := hcons
  rw [ht, writtenNumber_signed negative hfirst, ← ht, unsignedNumber_scientific]

theorem isScientific_scientific (hpos : 0 < d.coefficient) (negative : Bool) :
    IsScientific (Binary64.signed negative (d.scientific 2)) := by
  obtain ⟨first, u, -, hfirst, hu, hne, hmantissa⟩ := d.exists_mantissa_eq
  generalize hplaces : (if u = [] then [] else '.' :: u) = places at hmantissa
  generalize hpower : List.replicate (2 - (Nat.toDigits 10 d.leadingExponent.natAbs).length) '0' ++
    Nat.toDigits 10 d.leadingExponent.natAbs = power
  refine ⟨if negative then ['-'] else [], first, places, if d.leadingExponent < 0 then '-' else '+', power, ?_, ?_,
    hfirst, hne hpos, ?_, ?_, ?_, ?_⟩
  · rw [scientific, hmantissa, ← hpower]
    cases negative <;> rfl
  · cases negative
    · exact .inl rfl
    · exact .inr rfl
  · rw [← hplaces]
    by_cases hnil : u = []
    · exact .inl (if_pos hnil)
    · exact .inr ⟨u, ⟨hnil, hu⟩, if_neg hnil⟩
  · split
    · exact .inr rfl
    · exact .inl rfl
  · intro c hc
    rw [← hpower] at hc
    rcases List.mem_append.1 hc with hc | hc
    · exact isDigit_of_mem_replicate hc
    · exact Nat.isDigit_of_mem_toDigits (by decide) (by decide) hc
  · rw [← hpower, List.length_append, List.length_replicate]
    omega

/-- The first digit of a decimal is worth the leading power of ten. -/
theorem leadingExponent_bounds (hpos : 0 < d.coefficient) :
    (10 : ℚ) ^ d.leadingExponent ≤ d.toRat ∧ d.toRat < (10 : ℚ) ^ (d.leadingExponent + 1) := by
  obtain ⟨n, hn⟩ := Nat.exists_eq_add_one_of_ne_zero (Nat.pos_iff_ne_zero.1 d.length_digits_pos)
  have hlower : 10 ^ n ≤ d.coefficient := by
    rcases Nat.eq_zero_or_pos n with rfl | hnpos
    · exact hpos
    · refine Nat.le_of_not_lt fun hlt => ?_
      have hle := (length_digits_le_iff (d := d) hnpos).2 hlt
      omega
  have hupper : d.coefficient < 10 ^ (n + 1) := (length_digits_le_iff (Nat.succ_pos n)).1 (Nat.le_of_eq hn)
  have hten : (0 : ℚ) < 10 ^ d.exponent := zpow_pos (by norm_num) _
  have hpower (k : Nat) : (10 : ℚ) ^ ((k : Int) + d.exponent) = (10 ^ k : Nat) * 10 ^ d.exponent := by
    rw [zpow_add₀ (by norm_num), zpow_natCast, Nat.cast_pow, Nat.cast_ofNat]
  have hleading : d.leadingExponent = (n : Int) + d.exponent := by
    rw [leadingExponent, hn]
    omega
  have hnext : d.leadingExponent + 1 = ((n + 1 : Nat) : Int) + d.exponent := by omega
  rw [hnext, hleading, hpower, hpower, toRat]
  exact ⟨mul_le_mul_of_nonneg_right (Nat.cast_le.2 hlower) hten.le,
    mul_lt_mul_of_pos_right (Nat.cast_lt.2 hupper) hten⟩

end Decimal

/-! ## Numbers -/

theorem NumberStyle.write_general (m : Magnitude) :
    general.write m =
      if -4 ≤ (m.shortest .up).leadingExponent ∧ (m.shortest .up).leadingExponent < 21 then
        (m.shortest .up).plain
      else (m.shortest .up).scientific 2 := by
  have hending : (if 0 ≤ (m.shortest .up).exponent then ([] : Text) else []) = [] := ite_self _
  have hrule : general.isPositional (m.shortest .up).leadingExponent = true ↔
      -4 ≤ (m.shortest .up).leadingExponent ∧ (m.shortest .up).leadingExponent < 21 := by
    simp [general]
  show (if general.isPositional (m.shortest .up).leadingExponent then
    (m.shortest .up).plain ++ (if 0 ≤ (m.shortest .up).exponent then ([] : Text) else [])
    else (m.shortest .up).scientific 2) = _
  rw [hending, List.append_nil]
  by_cases h : general.isPositional (m.shortest .up).leadingExponent = true
  · rw [if_pos h, if_pos (hrule.1 h)]
  · rw [if_neg h, if_neg fun h' => h (hrule.2 h')]

namespace Magnitude

variable {m : Magnitude}

theorem toRat_shortest_eq_zero_iff : (m.shortest .up).toRat = 0 ↔ m.code = 0 := by
  constructor
  · intro hzero
    have hsame : (m.shortest .up).toRat = Decimal.toRat ⟨0, 0⟩ := by
      rw [hzero, Decimal.toRat, Nat.cast_zero, zero_mul]
    rw [← m.code_shortest .up, Decimal.code_eq_code hsame, Decimal.code, Decimal.numerator, Nat.zero_mul,
      Nat.zero_mul, nearestCode_zero]
  · intro hm
    rw [shortest, if_pos hm, Decimal.toRat, Nat.cast_zero, zero_mul]

theorem coefficient_shortest_pos (hm : m.code ≠ 0) : 0 < (m.shortest .up).coefficient := by
  refine Nat.pos_of_ne_zero fun hzero => hm (toRat_shortest_eq_zero_iff.1 ?_)
  rw [Decimal.toRat, hzero, Nat.cast_zero, zero_mul]

theorem toRat_shortest_nonneg (m : Magnitude) : 0 ≤ (m.shortest .up).toRat :=
  mul_nonneg (Nat.cast_nonneg _) (zpow_nonneg (by norm_num) _)

theorem eq_of_toRat_shortest_eq {m' : Magnitude} (h : (m.shortest .up).toRat = (m'.shortest .up).toRat) :
    m = m' := by
  obtain ⟨code, hcode⟩ := m
  obtain ⟨code', hcode'⟩ := m'
  have hcodes := Decimal.code_eq_code h
  rw [code_shortest, code_shortest] at hcodes
  obtain rfl : code = code' := hcodes
  rfl

end Magnitude

namespace Binary64

theorem general_of_ne_zero {m : Magnitude} (hm : m.code ≠ 0) (negative : Bool) :
    (finite negative m).general = signed negative (NumberStyle.general.write m) := by
  have hzero : ¬ (finite negative m).isZero = true := fun h => hm (beq_iff_eq.1 h)
  rw [general, if_neg hzero]

theorem plain_of_ne_zero {m : Magnitude} (hm : m.code ≠ 0) (negative : Bool) :
    (finite negative m).plain = signed negative (m.shortest .up).plain := by
  have hsign : (finite negative m).isBelowZero = negative := by simp [isBelowZero, hm]
  rw [plain_finite, hsign]

theorem general_of_isZero {x : Binary64} (h : x.isZero = true) : x.general = ['0'] := if_pos h

theorem plain_of_isZero {x : Binary64} (h : x.isZero = true) : x.plain = ['0'] := if_pos h

theorem writtenNumber_plain (negative : Bool) (m : Magnitude) :
    writtenNumber (finite negative m).plain = signFactor negative * (m.shortest .up).toRat := by
  by_cases hm : m.code = 0
  · have hzero : (finite negative m).isZero = true := beq_iff_eq.2 hm
    rw [plain_of_isZero hzero, Magnitude.toRat_shortest_eq_zero_iff.2 hm, mul_zero]
    decide +kernel
  · rw [plain_of_ne_zero hm, Decimal.writtenNumber_signed_plain]

theorem writtenNumber_general (negative : Bool) (m : Magnitude) :
    writtenNumber (finite negative m).general = signFactor negative * (m.shortest .up).toRat := by
  by_cases hm : m.code = 0
  · have hzero : (finite negative m).isZero = true := beq_iff_eq.2 hm
    rw [← writtenNumber_plain, general_of_isZero hzero, plain_of_isZero hzero]
  · rw [general_of_ne_zero hm, NumberStyle.write_general]
    split
    next => exact Decimal.writtenNumber_signed_plain _ _
    next => exact Decimal.writtenNumber_signed_scientific _ _ _

/-- The written number identifies the number, but for the sign of a zero. -/
theorem unsignedZero_eq_of_general_eq {negative negative' : Bool} {m m' : Magnitude}
    (h : (finite negative m).general = (finite negative' m').general) :
    (finite negative m).unsignedZero = (finite negative' m').unsignedZero := by
  have hnumbers := congrArg writtenNumber h
  rw [writtenNumber_general, writtenNumber_general] at hnumbers
  have hsizes := congrArg abs hnumbers
  rw [abs_mul, abs_mul, abs_signFactor, abs_signFactor, one_mul, one_mul,
    abs_of_nonneg m.toRat_shortest_nonneg, abs_of_nonneg m'.toRat_shortest_nonneg] at hsizes
  obtain rfl := Magnitude.eq_of_toRat_shortest_eq hsizes
  -- The sizes are equal; the signs are too, unless the size is zero, where they do not count.
  by_cases hm : m.code = 0
  · have hzero (sign : Bool) : (finite sign m).isZero = true := beq_iff_eq.2 hm
    rw [unsignedZero_of_isZero (hzero negative), unsignedZero_of_isZero (hzero negative')]
  · have hsize : (m.shortest .up).toRat ≠ 0 := fun h0 => hm (Magnitude.toRat_shortest_eq_zero_iff.1 h0)
    rw [signFactor_injective (mul_right_cancel₀ hsize hnumbers)]

end Binary64

/-- **In general style a finite number is written with a power of ten exactly when its first digit is worth less
than `10 ^ -4` or at least `10 ^ 21`**, else with all its places; both texts stand for the shortest decimal of
the number, and only the two zeros are written alike. -/
theorem general_exact {x : Binary64} (hx : x.isFinite = true) :
    (x.isZero = false → ∃ (negative : Bool) (m : Magnitude) (d : Decimal) (k : Int),
      x = .finite negative m ∧ d.IsShortestOf m ∧ (10 : ℚ) ^ k ≤ d.toRat ∧ d.toRat < 10 ^ (k + 1) ∧
      x.plain = Binary64.signed negative d.plain ∧ writtenNumber x.general = signFactor negative * d.toRat ∧
      ('e' ∈ x.general ↔ k < -4 ∨ 21 ≤ k) ∧
      (¬ (k < -4 ∨ 21 ≤ k) → x.general = x.plain) ∧
      (k < -4 ∨ 21 ≤ k → Decimal.IsScientific x.general)) ∧
    writtenNumber x.general = writtenNumber x.plain ∧
    ∀ y : Binary64, y.isFinite = true → y.general = x.general → y.unsignedZero = x.unsignedZero := by
  cases x with
  | nan => cases hx
  | infinite => cases hx
  | finite negative m =>
    refine ⟨fun hzero => ?_, ?_, fun y hy h => ?_⟩
    · -- The exponent is that of the first digit, by which the style chooses its way of writing.
      have hm : m.code ≠ 0 := beq_eq_false_iff_ne.1 hzero
      have hplain := Binary64.plain_of_ne_zero hm negative
      have hscientific :=
        (m.shortest .up).isScientific_scientific (Magnitude.coefficient_shortest_pos hm) negative
      obtain ⟨hlower, hupper⟩ :=
        (m.shortest .up).leadingExponent_bounds (Magnitude.coefficient_shortest_pos hm)
      refine ⟨negative, m, m.shortest .up, (m.shortest .up).leadingExponent, rfl, m.isShortestOf_shortest .up,
        hlower, hupper, hplain, Binary64.writtenNumber_general negative m, ?_⟩
      by_cases hk : -4 ≤ (m.shortest .up).leadingExponent ∧ (m.shortest .up).leadingExponent < 21
      · have hgeneral : (Binary64.finite negative m).general = (Binary64.finite negative m).plain := by
          rw [Binary64.general_of_ne_zero hm, NumberStyle.write_general, if_pos hk, hplain]
        refine ⟨⟨fun hmem => ?_, fun h => by omega⟩, fun _ => hgeneral, fun h => by omega⟩
        rw [hgeneral, hplain] at hmem
        exact absurd hmem (Decimal.mark_not_mem_signed_plain _ _)
      · have hgeneral : (Binary64.finite negative m).general =
            Binary64.signed negative ((m.shortest .up).scientific 2) := by
          rw [Binary64.general_of_ne_zero hm, NumberStyle.write_general, if_neg hk]
        rw [hgeneral]
        exact ⟨⟨fun _ => by omega, fun _ => hscientific.mark_mem⟩, fun h => by omega, fun _ => hscientific⟩
    · rw [Binary64.writtenNumber_general, Binary64.writtenNumber_plain]
    · cases y with
      | nan => cases hy
      | infinite => cases hy
      | finite negative' m' => exact Binary64.unsignedZero_eq_of_general_eq h

/-- The theorem at the numbers next to `-2.5 * 10 ^ -7` and `10 ^ 21`. -/
theorem general_exact_small_and_large :
    Decimal.IsScientific "-2.5e-07".toList ∧
    writtenNumber "-2.5e-07".toList = writtenNumber "-0.00000025".toList ∧
    writtenNumber "1e+21".toList = writtenNumber "1000000000000000000000".toList := by
  have hsmall : (Decimal.toBinary64 true ⟨25, -8⟩).general = "-2.5e-07".toList ∧
      (Decimal.toBinary64 true ⟨25, -8⟩).plain = "-0.00000025".toList := by decide +kernel
  have hlarge : (Decimal.toBinary64 false ⟨1, 21⟩).general = "1e+21".toList ∧
      (Decimal.toBinary64 false ⟨1, 21⟩).plain = "1000000000000000000000".toList := by decide +kernel
  refine ⟨?_, ?_, ?_⟩
  · obtain ⟨-, -, -, k, -, -, -, -, -, -, hmark, -, hscientific⟩ :=
      (general_exact (x := Decimal.toBinary64 true ⟨25, -8⟩) (by decide +kernel)).1 (by decide +kernel)
    rw [hsmall.1] at hmark hscientific
    exact hscientific (hmark.1 (by decide))
  · rw [← hsmall.1, ← hsmall.2]
    exact (general_exact (by decide +kernel)).2.1
  · rw [← hlarge.1, ← hlarge.2]
    exact (general_exact (by decide +kernel)).2.1

end DeskCalculator
