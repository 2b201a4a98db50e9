import DeskCalculator.Binary64.Written
import DeskCalculator.Proofs.Binary64.Zeros
import DeskCalculator.Proofs.Literal.Sign

/-!
# Plain numbers read back

What `plain` writes of a finite number is a literal of that number, a zero having lost its sign
(`literal?_plain`). The digits are chosen so that they read back (`code_shortest`); what is left is
that taking zeros off the end of a coefficient keeps the value, and that the text of a decimal is read as
that value (`Decimal.plain_reads`).
-/

namespace DeskCalculator

namespace Decimal

/-! ## Decimals of one value -/

theorem code_eq_of_scaled {d e : Decimal} {k : Nat} (hk : 0 < k)
    (hnum : e.numerator = d.numerator * k) (hden : e.denominator = d.denominator * k) :
    e.code = d.code := by
  rw [code, code, hnum, hden, nearestCode_mul_right _ _ hk]

theorem code_mul_ten (c : Nat) (e : Int) : code ⟨c, e + 1⟩ = code ⟨c * 10, e⟩ := by
  by_cases he : 0 ≤ e
  · have hpow : (e + 1).toNat = e.toNat + 1 := by omega
    have hden : (-(e + 1)).toNat = (-e).toNat := by omega
    have hnum : c * Nat.pow 10 (e.toNat + 1) = c * 10 * Nat.pow 10 e.toNat := by
      show c * 10 ^ (e.toNat + 1) = c * 10 * 10 ^ e.toNat
      rw [Nat.pow_succ, Nat.mul_comm (10 ^ e.toNat), Nat.mul_assoc]
    simp only [code, numerator, denominator, hpow, hden, hnum]
  · have hpow : (e + 1).toNat = 0 := by omega
    have hpow' : e.toNat = 0 := by omega
    have hden : (-e).toNat = (-(e + 1)).toNat + 1 := by omega
    refine (code_eq_of_scaled (k := 10) (by decide) ?_ ?_).symm
    · simp only [numerator, hpow, hpow']
      show c * 10 * 1 * _ = c * 1 * _ * 10
      rw [Nat.mul_one, Nat.mul_one, Nat.mul_right_comm]
    · simp only [denominator, hden]
      rfl

theorem code_withoutEndingZeros (d : Decimal) : d.withoutEndingZeros.code = d.code := by
  fun_induction withoutEndingZeros d with
  | case1 d h ih =>
    rw [ih, code_mul_ten, Nat.div_mul_cancel (Nat.dvd_of_mod_eq_zero h.2)]
  | case2 => rfl

end Decimal

namespace Magnitude

/-! ## The shortest decimal -/

theorem code_exactDecimal (m : Magnitude) : m.exactDecimal.code = m.code := by
  have hvalue : nearestCode m.units 1 = m.code := nearestCode_unitsOfCode m.code
  have hpow (n : Nat) : 0 < Nat.pow 10 n := Nat.pow_pos (by decide)
  have hnum : m.exactDecimal.numerator = m.units * Nat.pow 10 unitExponent := by
    simp only [exactDecimal, exactCoefficient, Decimal.numerator]
    generalize unitExponent = n
    have hzero : (-(n : Int)).toNat = 0 := by omega
    have hsplit : Nat.pow 10 n = Nat.pow 5 n * Nat.pow 2 n := Nat.mul_pow 5 2 n
    rw [hzero, hsplit]
    show m.units * Nat.pow 5 n * 1 * _ = _
    rw [Nat.mul_one, Nat.mul_assoc]
  have hden : m.exactDecimal.denominator = 1 * Nat.pow 10 unitExponent := by
    simp only [exactDecimal, Decimal.denominator]
    generalize unitExponent = n
    rw [Int.neg_neg, Int.toNat_natCast, Nat.one_mul]
  rw [Decimal.code, hnum, hden, nearestCode_mul_right _ _ (hpow _), hvalue]

theorem code_of_neighbour? {tie : Tie} {m : Magnitude} {exact dropped : Nat} {d : Decimal}
    (h : m.neighbour? tie exact dropped = some d) : d.code = m.code := by
  simp only [neighbour?] at h
  split at h
  next hbelow =>
    split at h
    next habove =>
      obtain rfl := Option.some.inj h
      simp only [Bool.and_eq_true] at habove
      exact beq_iff_eq.1 habove.1
    next =>
      obtain rfl := Option.some.inj h
      exact beq_iff_eq.1 hbelow
  next =>
    split at h
    next habove =>
      obtain rfl := Option.some.inj h
      exact beq_iff_eq.1 habove
    next => simp at h

theorem code_shortest (tie : Tie) (m : Magnitude) : (m.shortest tie).code = m.code := by
  unfold shortest
  split
  next hzero =>
    rw [hzero, Decimal.code, Decimal.numerator, Nat.zero_mul, Nat.zero_mul, nearestCode_zero]
  next =>
    rw [Decimal.code_withoutEndingZeros]
    cases hfound : (List.range' 1 17).findSome? fun count =>
        m.neighbour? tie m.exactCoefficient ((Nat.toDigits 10 m.exactCoefficient).length - count) with
    | none => exact m.code_exactDecimal
    | some d =>
      obtain ⟨count, -, hcount⟩ := List.exists_of_findSome?_eq_some hfound
      exact code_of_neighbour? hcount

end Magnitude

namespace Literal

/-! ## The text of a decimal -/

theorem ne_point_of_isDigit {c : Char} (h : c.isDigit = true) : c ≠ '.' := by
  rintro rfl
  simp at h

theorem dropWhile_ne_point {t : Text} (h : ∀ c ∈ t, c.isDigit = true) (u : Text) :
    (t ++ u).dropWhile (· != '.') = u.dropWhile (· != '.') := by
  refine List.dropWhile_append_of_pos fun c hc => ?_
  simpa using ne_point_of_isDigit (h c hc)

theorem unsignedValue_of_digits {t : Text} (h : ∀ c ∈ t, c.isDigit = true) :
    unsignedValue t = ⟨Nat.ofDigitChars 10 t 0, 0⟩ := by
  have hfilter : t.filter Char.isDigit = t := List.filter_eq_self.2 h
  have hdrop : t.dropWhile (· != '.') = [] := by
    have hpass := dropWhile_ne_point h []
    rwa [List.append_nil] at hpass
  rw [unsignedValue, hfilter, hdrop]
  rfl

theorem unsignedValue_of_pointed {t u : Text} (ht : ∀ c ∈ t, c.isDigit = true)
    (hu : ∀ c ∈ u, c.isDigit = true) :
    unsignedValue (t ++ '.' :: u) = ⟨Nat.ofDigitChars 10 (t ++ u) 0, -u.length⟩ := by
  have hfilter : (t ++ '.' :: u).filter Char.isDigit = t ++ u := by
    rw [List.filter_append, List.filter_eq_self.2 ht, List.filter_cons_of_neg (by decide),
      List.filter_eq_self.2 hu]
  rw [unsignedValue, hfilter, dropWhile_ne_point ht]
  rfl

theorem isUnsigned_of_digits {t : Text} (hne : t ≠ []) (h : ∀ c ∈ t, c.isDigit = true) :
    isUnsigned t = true := by
  have hcount : t.count '.' = 0 := List.count_eq_zero.2 fun hc => ne_point_of_isDigit (h _ hc) rfl
  obtain ⟨c, u, rfl⟩ := List.exists_cons_of_ne_nil hne
  simp only [isUnsigned, Bool.and_eq_true, List.all_eq_true, List.any_eq_true, decide_eq_true_eq]
  refine ⟨⟨fun d hd => ?_, c, by simp, h c (by simp)⟩, by omega⟩
  simp [isNumeral, h d hd]

theorem isUnsigned_of_pointed {t u : Text} (hne : t ≠ []) (ht : ∀ c ∈ t, c.isDigit = true)
    (hu : ∀ c ∈ u, c.isDigit = true) : isUnsigned (t ++ '.' :: u) = true := by
  have hcount {v : Text} (hv : ∀ c ∈ v, c.isDigit = true) : v.count '.' = 0 :=
    List.count_eq_zero.2 fun hc => ne_point_of_isDigit (hv _ hc) rfl
  obtain ⟨c, v, rfl⟩ := List.exists_cons_of_ne_nil hne
  simp only [isUnsigned, Bool.and_eq_true, List.all_eq_true, List.any_eq_true, decide_eq_true_eq]
  refine ⟨⟨fun d hd => ?_, c, by simp, ht c (by simp)⟩, ?_⟩
  · rw [isNumeral, Bool.or_eq_true, beq_iff_eq]
    rcases List.mem_append.1 hd with hd | hd
    · exact .inl (ht d hd)
    · rcases List.mem_cons.1 hd with rfl | hd
      · exact .inr rfl
      · exact .inl (hu d hd)
  · have hfront := hcount ht
    have hback := hcount hu
    rw [List.count_append, List.count_cons_self]
    omega

end Literal

namespace Decimal

theorem digits_ne_nil (d : Decimal) : d.digits ≠ [] := Nat.toDigits_ne_nil

theorem ofDigitChars_digits (d : Decimal) : Nat.ofDigitChars 10 d.digits 0 = d.coefficient :=
  Nat.ofDigitChars_ten_toDigits

theorem isDigit_of_mem_replicate {n : Nat} {c : Char} (h : c ∈ List.replicate n '0') :
    c.isDigit = true := by
  rw [List.eq_of_mem_replicate h]
  rfl

/-- One or more digits. -/
def IsDigits (t : Text) : Prop := t ≠ [] ∧ ∀ c ∈ t, c.isDigit = true

theorem plain_of_nonneg {d : Decimal} (h : 0 ≤ d.exponent) :
    IsDigits d.plain ∧ Nat.ofDigitChars 10 d.plain 0 = d.coefficient * Nat.pow 10 d.exponent.toNat := by
  rw [plain, if_pos h]
  refine ⟨⟨by simp [digits_ne_nil], fun c hc => ?_⟩, ?_⟩
  · rcases List.mem_append.1 hc with hc | hc
    · exact isDigit_of_mem_digits hc
    · exact isDigit_of_mem_replicate hc
  · rw [Nat.ofDigitChars_append, ofDigitChars_digits, Nat.ofDigitChars_replicate_zero]
    exact Nat.mul_comm _ _

theorem plain_of_neg {d : Decimal} (h : ¬ 0 ≤ d.exponent) :
    ∃ t u, d.plain = t ++ '.' :: u ∧ IsDigits t ∧ IsDigits u ∧
      Nat.ofDigitChars 10 (t ++ u) 0 = d.coefficient ∧ -(u.length : Int) = d.exponent := by
  rw [plain, if_neg h, pointed]
  generalize hplaces : (-d.exponent).toNat = places
  generalize hpadded : List.replicate (places + 1 - d.digits.length) '0' ++ d.digits = padded
  have hdigits : ∀ c ∈ padded, c.isDigit = true := by
    intro c hc
    rw [← hpadded] at hc
    rcases List.mem_append.1 hc with hc | hc
    · exact isDigit_of_mem_replicate hc
    · exact isDigit_of_mem_digits hc
  have hlength : places + 1 ≤ padded.length := by
    rw [← hpadded, List.length_append, List.length_replicate]
    omega
  refine ⟨_, _, rfl, ⟨?_, fun c hc => hdigits c (List.mem_of_mem_take hc)⟩,
    ⟨?_, fun c hc => hdigits c (List.mem_of_mem_drop hc)⟩, ?_, ?_⟩
  · refine List.ne_nil_of_length_pos ?_
    rw [List.length_take]
    omega
  · refine List.ne_nil_of_length_pos ?_
    rw [List.length_drop]
    omega
  · rw [List.take_append_drop, ← hpadded, Nat.ofDigitChars_append, Nat.ofDigitChars_replicate_zero,
      Nat.mul_zero, ofDigitChars_digits]
  · rw [List.length_drop]
    omega

theorem plain_reads (d : Decimal) :
    Literal.isUnsigned d.plain = true ∧ (Literal.unsignedValue d.plain).code = d.code := by
  by_cases hexponent : 0 ≤ d.exponent
  · obtain ⟨⟨hne, hdigits⟩, hvalue⟩ := plain_of_nonneg hexponent
    refine ⟨Literal.isUnsigned_of_digits hne hdigits, ?_⟩
    rw [Literal.unsignedValue_of_digits hdigits, hvalue]
    have hden : (-d.exponent).toNat = 0 := by omega
    have hnum (n : Nat) : n * Nat.pow 10 (0 : Int).toNat = n := Nat.mul_one n
    simp only [code, numerator, denominator, hden, hnum]
    rfl
  · obtain ⟨t, u, hplain, ⟨hne, ht⟩, ⟨-, hu⟩, hvalue, hlength⟩ := plain_of_neg hexponent
    rw [hplain, Literal.unsignedValue_of_pointed ht hu, hvalue, hlength]
    exact ⟨Literal.isUnsigned_of_pointed hne ht hu, rfl⟩

end Decimal

/-! ## Numbers -/

theorem toBinary64_of_code_eq {d : Decimal} {m : Magnitude} (negative : Bool)
    (h : d.code = m.code) : d.toBinary64 negative = .finite negative m := by
  rw [Decimal.toBinary64]
  exact Binary64.ofRatio_of_nearestCode_eq negative h

/-- **What is written of a finite number reads back as the number**, a zero without its sign. -/
theorem literal?_plain {x : Binary64} (hx : x.isFinite = true) :
    literal? x.plain = .ok (some x.unsignedZero) := by
  cases x with
  | nan => simp [Binary64.isFinite] at hx
  | infinite => simp [Binary64.isFinite] at hx
  | finite negative m =>
    unfold Binary64.plain Binary64.unsignedZero
    split
    next => decide +kernel
    next hzero =>
      obtain ⟨hunsigned, hcode⟩ := (m.shortest .up).plain_reads
      rw [Magnitude.code_shortest] at hcode
      have hvalue : (Literal.mk false (Literal.unsignedValue (m.shortest .up).plain)).value =
          .finite false m := toBinary64_of_code_eq false hcode
      have hread : literal? (m.shortest .up).plain = .ok (some (.finite false m)) :=
        literal?_eq_ok_some_iff.2 ⟨_, Literal.ofText?_of_isUnsigned hunsigned, hvalue, rfl⟩
      rw [Binary64.display, NumberStyle.write_plain]
      cases negative with
      | false => exact hread
      | true => exact literal?_minus hunsigned hread

/-! ## The characters of a plain number -/

theorem plain_finite (negative : Bool) (m : Magnitude) : (Binary64.finite negative m).plain =
    Binary64.signed (Binary64.finite negative m).isBelowZero (m.shortest .up).plain := by
  by_cases hm : m.code = 0
  · have hzero : (Binary64.finite negative m).isZero = true := beq_iff_eq.2 hm
    have hsign : (Binary64.finite negative m).isBelowZero = false := by simp [Binary64.isBelowZero, hm]
    rw [Binary64.plain, if_pos hzero, hsign, Magnitude.shortest, if_pos hm]
    rfl
  · have hzero : ¬ (Binary64.finite negative m).isZero = true := fun h => hm (beq_iff_eq.1 h)
    have hsign : (Binary64.finite negative m).isBelowZero = negative := by
      simp [Binary64.isBelowZero, hm]
    rw [Binary64.plain, if_neg hzero, hsign, Binary64.display, NumberStyle.write_plain]

theorem isUnsigned_plain {x : Binary64} (hx : x.isFinite = true) (h : x.isBelowZero = false) :
    Literal.isUnsigned x.plain = true := by
  cases x with
  | nan => cases hx
  | infinite => cases hx
  | finite negative m =>
    rw [plain_finite, h]
    exact (m.shortest .up).plain_reads.1

theorem Binary64.isBelowZero_neg {x : Binary64} (h : x.isBelowZero = true) :
    x.neg.isBelowZero = false := by
  cases x with
  | nan => rfl
  | infinite negative => simpa [neg, isBelowZero] using h
  | finite negative m =>
    simp only [isBelowZero, Bool.and_eq_true] at h
    simp [neg, isBelowZero, h.1]

theorem plain_of_isBelowZero {x : Binary64} (hx : x.isFinite = true) (h : x.isBelowZero = true) :
    x.plain = '-' :: x.neg.plain := by
  have hneg := Binary64.isBelowZero_neg h
  cases x with
  | nan => cases hx
  | infinite => cases hx
  | finite negative m =>
    rw [plain_finite, h, Binary64.neg, plain_finite]
    rw [Binary64.neg] at hneg
    rw [hneg]
    rfl

theorem mem_plain {x : Binary64} (hx : x.isFinite = true) {c : Char} (hc : c ∈ x.plain) :
    Literal.isNumeral c = true ∨ c = '-' := by
  have hdigits {y : Binary64} (hy : y.isFinite = true) (h : y.isBelowZero = false)
      (hc : c ∈ y.plain) : Literal.isNumeral c = true :=
    Literal.isNumeral_of_isUnsigned (isUnsigned_plain hy h) hc
  cases h : x.isBelowZero with
  | false => exact .inl (hdigits hx h hc)
  | true =>
    rw [plain_of_isBelowZero hx h] at hc
    rcases List.mem_cons.1 hc with rfl | hc
    · exact .inr rfl
    · exact .inl (hdigits (by rwa [Binary64.isFinite_neg]) (Binary64.isBelowZero_neg h) hc)

end DeskCalculator
