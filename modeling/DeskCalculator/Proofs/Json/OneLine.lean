import DeskCalculator.Json

/-!
# JSON on one line

What is written of a JSON value holds no line break (`Json.newline_not_mem_render`): numbers are
written with digits and a few marks, the line breaks of a text are escaped, and there is nothing
between the parts but the marks of the notation. So a line break can separate values.
-/

namespace DeskCalculator

/-! ## Numbers -/

theorem Decimal.isDigit_or_eq_of_mem_mantissa {d : Decimal} {c : Char} (h : c ∈ d.mantissa) :
    c.isDigit = true ∨ c = '.' := by
  have hdigits : ∀ digit ∈ d.digits, digit.isDigit = true := fun _ => isDigit_of_mem_digits
  unfold mantissa at h
  split at h
  next => cases h
  next digit hone =>
    rw [List.mem_singleton.1 h]
    exact .inl (hdigits digit (by simp [hone]))
  next digit more _ hmore =>
    rw [List.mem_cons, List.mem_cons] at h
    rcases h with rfl | rfl | h
    · exact .inl (hdigits c (by simp [hmore]))
    · exact .inr rfl
    · exact .inl (hdigits c (by simp [hmore, h]))

theorem Decimal.isDigit_or_mem_of_mem_scientific {d : Decimal} {width : Nat} {c : Char}
    (h : c ∈ d.scientific width) : c.isDigit = true ∨ c ∈ ['.', 'e', '-', '+'] := by
  unfold scientific at h
  rw [List.mem_append, List.mem_cons, List.mem_cons, List.mem_append] at h
  rcases h with hmantissa | rfl | hsign | hzero | hpower
  · exact (isDigit_or_eq_of_mem_mantissa hmantissa).imp_right fun hc => by simp [hc]
  · exact .inr (by simp)
  · rw [hsign]
    split <;> simp
  · rw [List.eq_of_mem_replicate hzero]
    exact .inl rfl
  · exact .inl (Nat.isDigit_of_mem_toDigits (by decide) (by decide) hpower)

theorem NumberStyle.newline_not_mem_write {style : NumberStyle} (h : '\n' ∉ style.wholeEnding)
    (m : Magnitude) : '\n' ∉ style.write m := by
  rw [write]
  split
  next =>
    rw [List.mem_append]
    rintro (hc | hc)
    · exact absurd (Decimal.isDigit_or_eq_of_mem_plain hc) (by decide)
    · split at hc
      next => exact h hc
      next => cases hc
  next => exact fun hc => absurd (Decimal.isDigit_or_mem_of_mem_scientific hc) (by decide)

namespace Json

theorem newline_not_mem_renderNumber (x : Binary64) : '\n' ∉ renderNumber x := by
  cases x with
  | nan => decide
  | infinite negative => simp [renderNumber]
  | finite negative m =>
    intro hc
    rcases Binary64.mem_signed hc with hc | hc
    · exact absurd hc (by decide)
    · exact NumberStyle.newline_not_mem_write (by decide) m hc

/-! ## Values -/

mutual

theorem newline_not_mem_render (j : Json) : '\n' ∉ j.render := by
  cases j with
  | null => decide
  | natural n =>
    exact fun hc => absurd (Nat.isDigit_of_mem_toDigits (by decide) (by decide) hc) (by decide)
  | number x => exact newline_not_mem_renderNumber x
  | text t => exact newline_not_mem_renderText t
  | array items =>
    have hitems := newline_not_mem_renderItems items
    simp [render, hitems]
  | object fields =>
    have hfields := newline_not_mem_renderFields fields
    simp [render, hfields]

theorem newline_not_mem_renderItems (items : List Json) : '\n' ∉ renderItems items := by
  match items with
  | [] => simp [renderItems]
  | [item] => exact newline_not_mem_render item
  | item :: next :: items =>
    have hitem := newline_not_mem_render item
    have hitems := newline_not_mem_renderItems (next :: items)
    simp [renderItems, hitem, hitems]

theorem newline_not_mem_renderFields (fields : List (Text × Json)) : '\n' ∉ renderFields fields := by
  match fields with
  | [] => simp [renderFields]
  | [(name, value)] =>
    have hname := newline_not_mem_renderText name
    have hvalue := newline_not_mem_render value
    simp [renderFields, hname, hvalue]
  | (name, value) :: next :: fields =>
    have hname := newline_not_mem_renderText name
    have hvalue := newline_not_mem_render value
    have hfields := newline_not_mem_renderFields (next :: fields)
    simp [renderFields, hname, hvalue, hfields]

end

end Json

end DeskCalculator
