import DeskCalculator.Literal

/-!
# The sign of a literal

A literal is an unsigned one with at most one sign in front. A minus sign negates the value and a
plus sign leaves it as it is, so that a sign takes no part in whether the value is finite.
-/

namespace DeskCalculator

namespace Literal

theorem isNumeral_of_isUnsigned {t : Text} (h : isUnsigned t = true) {c : Char} (hc : c ∈ t) :
    isNumeral c = true := by
  simp only [isUnsigned, Bool.and_eq_true, List.all_eq_true] at h
  exact h.1.1 c hc

theorem not_mem_of_isUnsigned {t : Text} (h : isUnsigned t = true) {c : Char}
    (hc : isNumeral c = false) : c ∉ t := by
  intro hmem
  rw [isNumeral_of_isUnsigned h hmem] at hc
  cases hc

theorem ne_nil_of_isUnsigned {t : Text} (h : isUnsigned t = true) : t ≠ [] := by
  rintro rfl
  cases h

theorem isNumeral_of_head? {t : Text} (h : isUnsigned t = true) {c : Char} (hc : t.head? = some c) :
    isNumeral c = true := by
  exact isNumeral_of_isUnsigned h (List.mem_of_head? hc)

theorem splitSign_of_isUnsigned {t : Text} (h : isUnsigned t = true) :
    splitSign t = (false, t) := by
  unfold splitSign
  split
  next => exact absurd (isNumeral_of_head? h rfl) (by decide)
  next => exact absurd (isNumeral_of_head? h rfl) (by decide)
  next => rfl

theorem ofText?_of_isUnsigned {t : Text} (h : isUnsigned t = true) :
    ofText? t = some ⟨false, unsignedValue t⟩ := by
  rw [ofText?, splitSign_of_isUnsigned h]
  simp [h]

theorem ofText?_minus {t : Text} (h : isUnsigned t = true) :
    ofText? ('-' :: t) = some ⟨true, unsignedValue t⟩ := by
  simp [ofText?, splitSign, h]

theorem ofText?_plus {t : Text} (h : isUnsigned t = true) :
    ofText? ('+' :: t) = some ⟨false, unsignedValue t⟩ := by
  simp [ofText?, splitSign, h]

theorem exists_of_ofText? {t : Text} {l : Literal} (h : ofText? t = some l) :
    ∃ body, isUnsigned body = true ∧ l.decimal = unsignedValue body ∧
      (t = body ∧ l.negative = false ∨ t = '+' :: body ∧ l.negative = false ∨
        t = '-' :: body ∧ l.negative = true) := by
  unfold ofText? splitSign at h
  split at h
  next negative body hsplit =>
    split at h
    next hbody =>
      obtain rfl := Option.some.inj h
      refine ⟨body, hbody, rfl, ?_⟩
      split at hsplit
      next t =>
        obtain ⟨rfl, rfl⟩ := Prod.mk.inj hsplit
        exact .inr (.inr ⟨rfl, rfl⟩)
      next t =>
        obtain ⟨rfl, rfl⟩ := Prod.mk.inj hsplit
        exact .inr (.inl ⟨rfl, rfl⟩)
      next =>
        obtain ⟨rfl, rfl⟩ := Prod.mk.inj hsplit
        exact .inl ⟨rfl, rfl⟩
    next => simp at h

theorem ofText?_append_cons {l : Text} (hl : l ≠ []) {c : Char} (hc : isNumeral c = false)
    (r : Text) : ofText? (l ++ c :: r) = none := by
  cases h : ofText? (l ++ c :: r) with
  | none => rfl
  | some literal =>
    obtain ⟨body, hbody, -, hcases⟩ := exists_of_ofText? h
    obtain ⟨d, l, rfl⟩ := List.exists_cons_of_ne_nil hl
    have hmem : c ∈ body := by
      rcases hcases with ⟨heq, -⟩ | ⟨heq, -⟩ | ⟨heq, -⟩
      · rw [← heq]
        simp
      · rw [← (List.cons.inj heq).2]
        simp
      · rw [← (List.cons.inj heq).2]
        simp
    rw [isNumeral_of_isUnsigned hbody hmem] at hc
    cases hc

theorem ofText?_of_mem {t : Text} {c : Char} (hmem : c ∈ t) (hc : isNumeral c = false)
    (hplus : c ≠ '+') (hminus : c ≠ '-') : ofText? t = none := by
  cases h : ofText? t with
  | none => rfl
  | some literal =>
    obtain ⟨body, hbody, -, hcases⟩ := exists_of_ofText? h
    have hbodymem : c ∈ body := by
      rcases hcases with ⟨rfl, -⟩ | ⟨rfl, -⟩ | ⟨rfl, -⟩
      · exact hmem
      · exact (List.mem_cons.1 hmem).resolve_left hplus
      · exact (List.mem_cons.1 hmem).resolve_left hminus
    rw [isNumeral_of_isUnsigned hbody hbodymem] at hc
    cases hc

theorem value_neg (d : Decimal) : (Literal.mk true d).value = (Literal.mk false d).value.neg := by
  simp only [value, Decimal.toBinary64, Binary64.neg_ofRatio, Bool.not_false]

end Literal

theorem literal?_of_ofText? {t : Text} {l : Literal} (h : Literal.ofText? t = some l) :
    literal? t = if l.value.isFinite then .ok (some l.value) else .error .overflow := by
  rw [literal?, h]

theorem literal?_eq_ok_some_iff {t : Text} {x : Binary64} :
    literal? t = .ok (some x) ↔ ∃ l, Literal.ofText? t = some l ∧ l.value = x ∧
      x.isFinite = true := by
  unfold literal?
  cases Literal.ofText? t with
  | none => simp
  | some l =>
    by_cases hl : l.value.isFinite = true
    · simp only [hl, if_true, Except.ok.injEq, Option.some.injEq]
      constructor
      · rintro rfl
        exact ⟨l, rfl, rfl, hl⟩
      · rintro ⟨l', rfl, rfl, -⟩
        rfl
    · simp only [hl]
      constructor
      · nofun
      · rintro ⟨l', hl', rfl, hfinite⟩
        exact absurd (Option.some.inj hl' ▸ hfinite) hl

theorem literal?_minus {t : Text} (h : Literal.isUnsigned t = true) {x : Binary64}
    (hx : literal? t = .ok (some x)) : literal? ('-' :: t) = .ok (some x.neg) := by
  obtain ⟨l, hl, rfl, hfinite⟩ := literal?_eq_ok_some_iff.1 hx
  rw [Literal.ofText?_of_isUnsigned h] at hl
  obtain rfl := Option.some.inj hl
  exact literal?_eq_ok_some_iff.2
    ⟨_, Literal.ofText?_minus h, Literal.value_neg _, by rwa [Binary64.isFinite_neg]⟩

theorem literal?_plus {t : Text} (h : Literal.isUnsigned t = true) :
    literal? ('+' :: t) = literal? t := by
  unfold literal?
  rw [Literal.ofText?_plus h, Literal.ofText?_of_isUnsigned h]

theorem exists_unsigned_of_literal? {t : Text} {x : Binary64} (h : literal? t = .ok (some x)) :
    ∃ body y, Literal.isUnsigned body = true ∧ literal? body = .ok (some y) ∧
      (t = body ∨ t = '+' :: body ∨ t = '-' :: body) := by
  obtain ⟨l, hl, rfl, hfinite⟩ := literal?_eq_ok_some_iff.1 h
  obtain ⟨body, hbody, hdecimal, hcases⟩ := Literal.exists_of_ofText? hl
  refine ⟨body, (Literal.mk false (Literal.unsignedValue body)).value, hbody, ?_, ?_⟩
  · refine literal?_eq_ok_some_iff.2 ⟨_, Literal.ofText?_of_isUnsigned hbody, rfl, ?_⟩
    obtain ⟨negative, decimal⟩ := l
    obtain rfl : decimal = Literal.unsignedValue body := hdecimal
    cases negative with
    | false => exact hfinite
    | true => rwa [Literal.value_neg, Binary64.isFinite_neg] at hfinite
  · rcases hcases with ⟨rfl, -⟩ | ⟨rfl, -⟩ | ⟨rfl, -⟩
    · exact .inl rfl
    · exact .inr (.inl rfl)
    · exact .inr (.inr rfl)

end DeskCalculator
