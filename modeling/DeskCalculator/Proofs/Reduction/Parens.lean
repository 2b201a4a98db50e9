import DeskCalculator.Proofs.Parens.Balance
import DeskCalculator.Proofs.Reduction.Step

/-!
# The parentheses along a reduction

A step takes one pair of parentheses out of a text (`Group.filter_isParen_splice`), two that have no
other between them, and so the text stays balanced (`Group.balanced_splice_iff`).
-/

namespace DeskCalculator

/-! ## Trimming takes no parentheses -/

theorem filter_isParen_of_isBlanks {t : Text} (h : Text.IsBlanks t) : t.filter isParen = [] := by
  refine List.filter_eq_nil_iff.2 fun c hc hparen => ?_
  have hblank := h c hc
  simp only [isParen, Bool.or_eq_true, beq_iff_eq] at hparen
  rcases hparen with rfl | rfl <;> exact absurd hblank (by decide)

theorem filter_isParen_trimEnd (t : Text) : (Text.trimEnd t).filter isParen = t.filter isParen := by
  obtain ⟨blanks, hblanks, h⟩ := Text.eq_trimEnd_append t
  conv => rhs; rw [h]
  rw [List.filter_append, filter_isParen_of_isBlanks hblanks, List.append_nil]

theorem filter_isParen_trim (t : Text) : (Text.trim t).filter isParen = t.filter isParen := by
  obtain ⟨l, r, hl, hr, h⟩ := Text.eq_append_trim_append t
  conv => rhs; rw [h]
  rw [List.filter_append, List.filter_append, filter_isParen_of_isBlanks hl,
    filter_isParen_of_isBlanks hr, List.nil_append, List.append_nil]

theorem balanced_trim_iff {t : Text} : Balanced (Text.trim t) ↔ Balanced t :=
  balanced_iff_of_filter_eq (filter_isParen_trim t)

theorem filter_isParen_plain (x : Binary64) : x.plain.filter isParen = [] := by
  refine List.filter_eq_nil_iff.2 fun c hc hparen => ?_
  simp only [isParen, Bool.or_eq_true, beq_iff_eq] at hparen
  rcases hparen with rfl | rfl <;> exact Binary64.not_mem_plain (by decide) (by decide) hc

namespace Group

variable {g : Group} {x : Binary64}

theorem filter_isParen_front (g : Group) : g.front.1.filter isParen = g.before.filter isParen := by
  rcases g.before_eq with h | ⟨-, h⟩
  · rw [h]
  · rw [← filter_isParen_trimEnd g.before, h, List.filter_append]
    exact (List.append_nil _).symm

theorem filter_isParen_placed (g : Group) (x : Binary64) :
    (g.placed x).1.filter isParen = g.before.filter isParen := by
  have hsign (f : Text) : (f ++ ['+']).filter isParen = (f ++ ['-']).filter isParen := by
    rw [List.filter_append, List.filter_append]
    rfl
  rw [← filter_isParen_front, ← filter_isParen_trimEnd g.front.1]
  unfold placed
  rcases absorbSign_cases (Text.trimEnd g.front.1) x with heq | ⟨-, f, ⟨hf, heq⟩ | ⟨hf, heq⟩⟩
  · rw [heq]
  · rw [heq, hf]
    exact hsign f
  · rw [heq, hf]
    exact (hsign f).symm

theorem filter_isParen_splice (g : Group) (x : Binary64) :
    (g.splice x).filter isParen = g.before.filter isParen ++ g.after.filter isParen := by
  rw [splice_eq, List.filter_append, List.filter_append, filter_isParen_placed, filter_isParen_plain,
    List.append_nil]

theorem filter_isParen_text (g : Group) :
    g.text.filter isParen =
      g.before.filter isParen ++ '(' :: ')' :: g.after.filter isParen := by
  have hinside : g.inside.filter isParen = [] := by
    refine List.filter_eq_nil_iff.2 fun c hc hparen => ?_
    simp only [isParen, Bool.or_eq_true, beq_iff_eq] at hparen
    rcases hparen with rfl | rfl
    · exact g.opening_not_mem hc
    · exact g.closing_not_mem hc
  rw [text, List.filter_append, List.filter_cons_of_pos (by decide), List.filter_append, hinside,
    List.nil_append, List.filter_cons_of_pos (by decide)]

/-- **A step keeps the parentheses of a text matched.** -/
theorem balanced_splice_iff : Balanced (g.splice x) ↔ Balanced g.text := by
  rw [Balanced, Balanced, ← closes_filter_iff, ← closes_filter_iff (t := g.text),
    filter_isParen_splice, filter_isParen_text]
  exact (neutral_nil.group.closes_append_iff _ _).symm

end Group

end DeskCalculator
