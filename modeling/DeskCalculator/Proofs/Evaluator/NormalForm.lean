import DeskCalculator.Proofs.Evaluator.Checks
import DeskCalculator.Proofs.Evaluator.Spelling

/-!
# The form that is evaluated

A spelling in one pass leaves no sign that it would change again, and it leaves the blanks at the ends of
a text alone. So `normalize` gives a text that it does not change (`normalize_normalize`), trimming a text
before makes no difference (`normalize_trim`), and all three texts have the same value
(`normalize_exact`).
-/

namespace DeskCalculator

/-! ## What a spelling leaves -/

theorem key_not_mem_signs (c : Char) : key c ≠ '×' ∧ key c ≠ '÷' := by
  unfold key
  split
  next => decide
  next => decide
  next hcross hobelus => exact ⟨hcross, hobelus⟩

theorem not_mem_respell (t : Text) : '×' ∉ respell t ∧ '÷' ∉ respell t ∧ '√' ∉ respell t := by
  fun_induction respell t with
  | case1 => simp
  | case2 t ih => simpa using ih
  | case3 t _ ih => simpa using ih
  | case4 c t _ hc ih =>
    have hsigns := key_not_mem_signs c
    have hroot : key c ≠ '√' := fun h => hc ((key_eq_iff (by decide)).1 h)
    simp only [List.mem_cons, not_or]
    exact ⟨⟨hsigns.1.symm, ih.1⟩, ⟨hsigns.2.symm, ih.2.1⟩, hroot.symm, ih.2.2⟩

theorem respell_eq_self {t : Text} (hcross : '×' ∉ t) (hobelus : '÷' ∉ t) (hroot : '√' ∉ t) :
    respell t = t := by
  rw [respell_of_not_mem hroot, map_key_of_not_mem hcross hobelus]

theorem respell_of_isBlanks {t : Text} (h : Text.IsBlanks t) : respell t = t :=
  respell_eq_self (Text.not_mem_of_isBlanks h (by decide)) (Text.not_mem_of_isBlanks h (by decide))
    (Text.not_mem_of_isBlanks h (by decide))

theorem respell_append_of_isBlanks {l r : Text} (hl : Text.IsBlanks l) (hr : Text.IsBlanks r)
    (t : Text) : respell (l ++ t ++ r) = l ++ respell t ++ r := by
  have hfront : l.getLast? ≠ some '√' := fun h =>
    Text.not_mem_of_isBlanks hl (by decide) (List.mem_of_getLast? h)
  have hback : r.head? ≠ some '(' := fun h =>
    Text.not_mem_of_isBlanks hr (by decide) (List.mem_of_head? h)
  rw [respell_append fun _ => hback, respell_append fun h => absurd h hfront,
    respell_of_isBlanks hl, respell_of_isBlanks hr]

/-! ## Normal forms -/

theorem not_mem_normalize (t : Text) :
    '×' ∉ normalize t ∧ '÷' ∉ normalize t ∧ '√' ∉ normalize t := by
  have hspelt := not_mem_respell t
  rw [normalize_eq]
  have hsub := Text.trim_sublist (respell t)
  exact ⟨fun h => hspelt.1 (hsub.mem h), fun h => hspelt.2.1 (hsub.mem h),
    fun h => hspelt.2.2 (hsub.mem h)⟩

theorem normalize_trim (t : Text) : normalize (Text.trim t) = normalize t := by
  obtain ⟨l, r, hl, hr, ht⟩ := Text.eq_append_trim_append t
  rw [normalize_eq, normalize_eq]
  conv => rhs; rw [ht]
  rw [respell_append_of_isBlanks hl hr, Text.trim_append_of_isBlanks hl hr]

theorem normalize_normalize (t : Text) : normalize (normalize t) = normalize t := by
  obtain ⟨hcross, hobelus, hroot⟩ := not_mem_normalize t
  rw [normalize_eq (normalize t), respell_eq_self hcross hobelus hroot, normalize_eq]
  exact Text.trim_of_isTrimmed (Text.isTrimmed_trim _)

/-- **A text is spelt in one pass and trimmed, and this makes no difference to its value.** -/
theorem normalize_exact (t : Text) :
    spellings.foldl (fun t spelling => Text.replaceAll spelling.1 spelling.2 t) t = respell t ∧
    normalize t = Text.trim (respell t) ∧
    normalize (Text.trim t) = normalize t ∧
    normalize (normalize t) = normalize t ∧
    ('×' ∉ normalize t ∧ '÷' ∉ normalize t ∧ '√' ∉ normalize t) ∧
    ∀ ev : Evaluator, ev.evaluate (normalize t) = ev.evaluate t ∧
      ev.evaluate (Text.trim t) = ev.evaluate t :=
  ⟨foldl_spellings t, normalize_eq t, normalize_trim t, normalize_normalize t, not_mem_normalize t,
    fun ev => ⟨ev.evaluate_congr (normalize_normalize t), ev.evaluate_congr (normalize_trim t)⟩⟩

/-- A root keeps its parenthesis or gains one. -/
example : respell " √√(4)×√(√9÷2) ".toList = " sqrt(sqrt(4)*sqrt(sqrt(9/2) ".toList := by decide

end DeskCalculator
