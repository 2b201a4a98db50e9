/-!
# Text

A text is a list of characters, so that a piece of a text is a text and a statement about texts is
proved by induction on a list. Positions that other programs read are counted in bytes of the UTF-8
form (`byteLength`).

* `splitLast?` cuts a text at the last occurrence of a character.
* `replaceAll` replaces every occurrence of a pattern, from the left.
* `dropEnding?` takes a word off the end of a text.
-/

namespace DeskCalculator

/-- A text, character by character. -/
abbrev Text := List Char

namespace Text

/-- The number of bytes of the UTF-8 form. -/
def byteLength : Text → Nat
  | [] => 0
  | c :: t => c.utf8Size + byteLength t

@[simp] theorem byteLength_nil : byteLength [] = 0 := rfl

@[simp] theorem byteLength_cons (c : Char) (t : Text) :
    byteLength (c :: t) = c.utf8Size + byteLength t := rfl

@[simp] theorem byteLength_append (t u : Text) :
    byteLength (t ++ u) = byteLength t + byteLength u := by
  induction t with
  | nil => simp
  | cons c t ih => simp [ih, Nat.add_assoc]

theorem byteLength_pos {t : Text} (h : t ≠ []) : 0 < byteLength t := by
  obtain ⟨c, t, rfl⟩ := List.exists_cons_of_ne_nil h
  have hc := c.utf8Size_pos
  rw [byteLength_cons]
  omega

/-- An offset cuts a text in one way. -/
theorem append_inj_of_byteLength_eq {l l' r r' : Text} (h : l ++ r = l' ++ r')
    (hlength : byteLength l = byteLength l') : l = l' ∧ r = r' := by
  rcases List.append_eq_append_iff.1 h with ⟨m, rfl, rfl⟩ | ⟨m, rfl, rfl⟩
  all_goals
    by_cases hm : m = []
    · simp [hm]
    · have hpos := byteLength_pos hm
      rw [byteLength_append] at hlength
      omega

/-! ## Natural numbers -/

/-- The decimal digits of a natural number. -/
def ofNat (n : Nat) : Text := Nat.toDigits 10 n

/-- The natural number that a text of digits stands for; a plus sign may precede them. -/
def natural? (t : Text) : Option Nat :=
  let digits :=
    match t with
    | '+' :: t => t
    | t => t
  if digits ≠ [] ∧ digits.all Char.isDigit then some (Nat.ofDigitChars 10 digits 0) else none

/-! ## Cutting at a character -/

/-- The text before and after the last occurrence of a character. -/
def splitLast? (c : Char) : Text → Option (Text × Text)
  | [] => none
  | d :: t =>
    match splitLast? c t with
    | some (before, after) => some (d :: before, after)
    | none => if d = c then some ([], t) else none

theorem eq_append_of_splitLast? {c : Char} {t before after : Text}
    (h : splitLast? c t = some (before, after)) : t = before ++ c :: after := by
  induction t generalizing before after with
  | nil => simp [splitLast?] at h
  | cons d t ih =>
    rw [splitLast?] at h
    split at h
    next b a hba =>
      simp only [Option.some.injEq, Prod.mk.injEq] at h
      rw [← h.1, ← h.2, ih hba]
      rfl
    next =>
      split at h
      next hdc => simp_all
      next => simp at h

theorem splitLast?_eq_none_iff {c : Char} {t : Text} : splitLast? c t = none ↔ c ∉ t := by
  induction t with
  | nil => simp [splitLast?]
  | cons d t ih =>
    rw [splitLast?]
    split
    next b a hba =>
      have hmem : c ∈ t := by simp [eq_append_of_splitLast? hba]
      simp [hmem]
    next hnone =>
      have hnot : c ∉ t := ih.1 hnone
      split
      next hdc => simp [hdc]
      next hdc =>
        simp only [List.mem_cons, not_or, true_iff]
        exact ⟨fun h => hdc h.symm, hnot⟩

/-- What follows the last occurrence holds no further one. -/
theorem not_mem_after_splitLast? {c : Char} {t before after : Text}
    (h : splitLast? c t = some (before, after)) : c ∉ after := by
  induction t generalizing before after with
  | nil => simp [splitLast?] at h
  | cons d t ih =>
    rw [splitLast?] at h
    split at h
    next b a hba =>
      simp only [Option.some.injEq, Prod.mk.injEq] at h
      exact h.2 ▸ ih hba
    next hnone =>
      split at h
      next =>
        simp only [Option.some.injEq, Prod.mk.injEq] at h
        exact h.2 ▸ splitLast?_eq_none_iff.1 hnone
      next => simp at h

theorem splitLast?_append_cons {c : Char} {r : Text} (h : c ∉ r) (l : Text) :
    splitLast? c (l ++ c :: r) = some (l, r) := by
  have hnone := splitLast?_eq_none_iff.2 h
  induction l with
  | nil => simp only [List.nil_append, splitLast?, hnone, if_true]
  | cons d l ih => simp only [List.cons_append, splitLast?, ih]

/-! ## Replacing, and cutting an ending -/

/-- What a text becomes where its next `skip` characters belong to a replaced occurrence. -/
def replaceFrom (pattern replacement : Text) (skip : Nat) : Text → Text
  | [] => []
  | c :: t =>
    match skip with
    | skip + 1 => replaceFrom pattern replacement skip t
    | 0 =>
      if pattern.isPrefixOf (c :: t) then
        replacement ++ replaceFrom pattern replacement (pattern.length - 1) t
      else c :: replaceFrom pattern replacement 0 t

/-- Replaces each occurrence of a non-empty pattern; occurrences are found from the left and do not
overlap. -/
def replaceAll (pattern replacement : Text) : Text → Text :=
  replaceFrom pattern replacement 0

/-- The text before a given ending, if the text has that ending. -/
def dropEnding? (ending t : Text) : Option Text :=
  if ending.isSuffixOf t then some (t.take (t.length - ending.length)) else none

theorem eq_append_of_dropEnding? {ending t front : Text} (h : dropEnding? ending t = some front) :
    t = front ++ ending := by
  unfold dropEnding? at h
  split at h
  next hs =>
    obtain ⟨f, rfl⟩ := List.isSuffixOf_iff_suffix.1 hs
    simp at h
    rw [h]
  next => simp at h

theorem dropEnding?_append (front ending : Text) : dropEnding? ending (front ++ ending) = some front := by
  rw [dropEnding?, if_pos (List.isSuffixOf_iff_suffix.2 (List.suffix_append _ _))]
  simp

end Text

end DeskCalculator
