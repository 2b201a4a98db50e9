import DeskCalculator.Text.Basic

/-!
# Blanks

The blank characters are those with the Unicode property `White_Space`. Blanks separate words
(`words`), and they are cut off the ends of a text (`trim`).
-/

namespace DeskCalculator

namespace Text

/-- The code points with the property `White_Space`, as closed ranges in increasing order. -/
def blankRanges : List (Nat × Nat) :=
  [(0x09, 0x0d), (0x20, 0x20), (0x85, 0x85), (0xa0, 0xa0), (0x1680, 0x1680), (0x2000, 0x200a),
    (0x2028, 0x2029), (0x202f, 0x202f), (0x205f, 0x205f), (0x3000, 0x3000)]

/-- A blank character. -/
def isBlank (c : Char) : Bool :=
  blankRanges.any fun range => range.1 ≤ c.toNat && c.toNat ≤ range.2

example : (blankRanges.map fun range => range.2 + 1 - range.1).sum = 25 := rfl

theorem not_isBlank_of_isDigit {c : Char} (h : c.isDigit = true) : isBlank c = false := by
  have hc : 48 ≤ c.toNat ∧ c.toNat ≤ 57 := Char.isDigit_iff_toNat.1 h
  simp only [isBlank, blankRanges, List.any_cons, List.any_nil, Bool.or_false, Bool.or_eq_false_iff,
    Bool.and_eq_false_iff, decide_eq_false_iff_not]
  omega

/-! ## Trimming -/

/-- The text without the blanks at its start. -/
def trimStart (t : Text) : Text := t.dropWhile isBlank

/-- The text without the blanks at its end. -/
def trimEnd (t : Text) : Text := (t.reverse.dropWhile isBlank).reverse

/-- The text without the blanks at both ends. -/
def trim (t : Text) : Text := trimEnd (trimStart t)

theorem trimStart_sublist (t : Text) : (trimStart t).Sublist t := List.dropWhile_sublist _

theorem trimEnd_sublist (t : Text) : (trimEnd t).Sublist t := by
  have h := (List.dropWhile_sublist isBlank (l := t.reverse)).reverse
  rwa [List.reverse_reverse] at h

theorem trim_sublist (t : Text) : (trim t).Sublist t :=
  (trimEnd_sublist _).trans (trimStart_sublist t)

theorem length_trim_le (t : Text) : (trim t).length ≤ t.length := (trim_sublist t).length_le

theorem count_trim_le (c : Char) (t : Text) : (trim t).count c ≤ t.count c :=
  (trim_sublist t).count_le c

/-! ## Words -/

/-- The maximal runs of characters that are not blank. -/
def words (t : Text) : List Text := (t.splitOnP isBlank).filter (!·.isEmpty)

end Text

end DeskCalculator
