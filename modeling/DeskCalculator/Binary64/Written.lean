import DeskCalculator.Decimal.Style

/-!
# Written numbers

A number has three written forms. `display` is the full one, with a sign also on a zero; `plain` is
`display` with one zero, and what it writes of a finite number can be read again; `general` turns to
a power of ten where `plain` grows long.
-/

namespace DeskCalculator

namespace Binary64

/-- A text with a minus sign in front, if the sign is set. -/
def signed (negative : Bool) (t : Text) : Text := if negative then '-' :: t else t

/-- The number with all its places. -/
def display : Binary64 → Text
  | .nan => ['N', 'a', 'N']
  | .infinite negative => signed negative ['i', 'n', 'f']
  | .finite negative m => signed negative (NumberStyle.plain.write m)

/-- The number with all its places, and a zero without a sign. -/
def plain (x : Binary64) : Text := if x.isZero then ['0'] else x.display

/-- The number with all its places or with a power of ten, and a zero without a sign. -/
def general (x : Binary64) : Text :=
  if x.isZero then ['0']
  else
    match x with
    | .finite negative m => signed negative (NumberStyle.general.write m)
    | x => x.display

theorem mem_signed {negative : Bool} {t : Text} {c : Char} (h : c ∈ signed negative t) :
    c = '-' ∨ c ∈ t := by
  unfold signed at h
  split at h
  · simpa using h
  · exact .inr h

/-- A character that is no digit, point, sign or letter stands in no number. -/
theorem not_mem_plain {x : Binary64} {c : Char} (hdigit : c.isDigit = false)
    (h : c ∉ ['.', '-', 'N', 'a', 'i', 'n', 'f', '0']) : c ∉ x.plain := by
  intro hc
  unfold plain at hc
  split at hc
  · simp_all
  · cases x with
    | nan => simp_all [display]
    | infinite =>
      rcases mem_signed hc with hc | hc
      · simp_all
      · simp_all
    | finite =>
      rcases mem_signed hc with hc | hc
      · simp_all
      · rw [NumberStyle.write_plain] at hc
        rcases Decimal.isDigit_or_eq_of_mem_plain hc with hc | hc
        · simp_all
        · simp_all

end Binary64

example : (Decimal.toBinary64 false ⟨1, -1⟩).plain = "0.1".toList := by decide +kernel
example : (Decimal.toBinary64 true ⟨1, 21⟩).general = "-1e+21".toList := by decide +kernel
example : (Decimal.toBinary64 false ⟨25, -8⟩).general = "2.5e-07".toList := by decide +kernel
example : (Decimal.toBinary64 false ⟨1, -4⟩).general = "0.0001".toList := by decide +kernel

end DeskCalculator
