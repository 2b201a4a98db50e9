import DeskCalculator.Proofs.Evaluator.Literals
import DeskCalculator.Proofs.Evaluator.NormalForm
import DeskCalculator.Proofs.Expr.Reading
import DeskCalculator.Proofs.Reduction.Enclosing
import DeskCalculator.Proofs.Token.Inventory

/-!
# Redundant parentheses

Parentheses around a whole text change its value in neither mode, up to the sign of a zero, as long as
the longer and deeper text is within the limits (`evaluate_parenthesized`). The parser reads a group as what
is in it, and a reduction reduces the text in the parentheses first. A literal is answered before either of
them comes into play.
-/

namespace DeskCalculator

open Text (IsBlanks)

/-! ## The parser -/

namespace Expr

variable {t : Text}

theorem parse_enclose {l r : Text} (hl : IsBlanks l) (hr : IsBlanks r) {e : Expr}
    (h : parse t = .ok e) : parse (Text.enclose l r t) = .ok e := by
  obtain ⟨ts, hts, he⟩ := bind_eq_ok_iff.1 h
  have hclosing : tokenize (l ++ t ++ r ++ [')']) = .ok (ts ++ [.closing]) := by
    refine (tokenize_append_eq_ok_iff (apart_cons_of_isMark _ (by decide) [])).2 ⟨ts, [.closing], ?_, ?_, rfl⟩
    · rw [tokenize_blanks_append hl hr, hts]
    · rw [tokenize_closing_cons, tokenize_nil]
      rfl
  rw [parse, Text.enclose, tokenize_opening_cons, hclosing]
  exact ofTokens_of_derives (.ofProduct (.ofSigned (.ofPrimary (.group (ofTokens_eq_ok_iff_derives.1 he)))))

end Expr

/-! ## The modes -/

namespace Mode

variable {t : Text} {x : Binary64}

theorem exists_evaluate_enclose (mode : Mode) {l r : Text} (hl : IsBlanks l) (hr : IsBlanks r)
    (htrim : Text.IsTrimmed t) (h : mode.evaluate t = .ok x) :
    ∃ y, mode.evaluate (Text.enclose l r t) = .ok y ∧ y.unsignedZero = x.unsignedZero := by
  cases mode with
  | standard =>
    obtain ⟨e, hparse, heval⟩ := bind_eq_ok_iff.1 h
    refine ⟨x, ?_, rfl⟩
    rw [evaluate, Expr.parse_enclose hl hr hparse]
    exact heval
  | legacy =>
    rw [evaluate, Text.trim_of_isTrimmed htrim] at h
    refine ⟨x.unsignedZero, ?_, Binary64.unsignedZero_unsignedZero x⟩
    rw [evaluate, Text.trim_of_isTrimmed (Text.isTrimmed_enclose l r t)]
    exact Reduction.eval_enclose hl hr h

end Mode

/-! ## The evaluation -/

/-- The spelling keeps parentheses around a text, and the blanks that trimming would take off it. -/
theorem exists_normalize_enclose (t : Text) : ∃ l r, IsBlanks l ∧ IsBlanks r ∧
    normalize ('(' :: (t ++ [')'])) = Text.enclose l r (normalize t) := by
  obtain ⟨l, r, hl, hr, hsum⟩ := Text.eq_append_trim_append (respell t)
  have hspelt : respell ('(' :: (t ++ [')'])) = Text.enclose l r (normalize t) := by
    rw [respell_cons (by decide), respell_append (by simp), Text.enclose, normalize_eq, ← hsum]
    rfl
  refine ⟨l, r, hl, hr, ?_⟩
  rw [normalize_eq, hspelt]
  exact Text.trim_of_isTrimmed (Text.isTrimmed_enclose _ _ _)

theorem Evaluator.balanced_and_evaluate {ev : Evaluator} {t : Text} {x : Binary64}
    (h : ev.evaluateNormalized t = .ok x) : Balanced t ∧ ev.mode.evaluate t = .ok x := by
  rcases literal?_or_eq_none h with hliteral | hnone
  · obtain ⟨hopening, hclosing⟩ := parens_not_mem_of_literal? hliteral
    exact ⟨(neutral_of_not_mem hopening hclosing).balanced, ev.mode.evaluate_of_literal? hliteral⟩
  · obtain ⟨hbalanced, -, hmode⟩ := evaluateNormalized_eq_ok hnone h
    exact ⟨hbalanced, hmode⟩

/-- **Parentheses around a whole text change nothing** but the sign of a zero, if the limits allow them. -/
theorem evaluate_parenthesized (ev : Evaluator) (t : Text) {x : Binary64} (hne : normalize t ≠ [])
    (h : ev.evaluate t = .ok x)
    (hlength : (normalize ('(' :: (t ++ [')']))).length ≤ ev.limits.maxLength)
    (hdepth : nesting (normalize ('(' :: (t ++ [')']))) ≤ ev.limits.maxDepth) :
    ∃ y, ev.evaluate ('(' :: (t ++ [')'])) = .ok y ∧ y.unsignedZero = x.unsignedZero := by
  obtain ⟨l, r, hl, hr, hnormal⟩ := exists_normalize_enclose t
  rw [ev.evaluate_of_normalize_ne_nil hne] at h
  obtain ⟨hbalanced, hmode⟩ := Evaluator.balanced_and_evaluate h
  have htrim : Text.IsTrimmed (normalize t) := Text.isTrimmed_trim _
  have hliteral : Literal.ofText? (Text.enclose l r (normalize t)) = none :=
    Literal.ofText?_of_mem (c := '(') (by simp [Text.enclose]) (by decide) (by decide) (by decide)
  rw [hnormal] at hlength hdepth
  rw [ev.evaluate_of_shallow hnormal (by simp [Text.enclose]) hlength hliteral
    (Text.balanced_enclose hl hr hbalanced) hdepth]
  exact ev.mode.exists_evaluate_enclose hl hr htrim hmode

/-- The theorem at `3 - (2-√9) `, where the sign in front of the group turns. -/
theorem evaluate_parenthesized_turned_sign :
    ∃ y, (Evaluator.mk .legacy .standard).evaluate "(3 - (2-√(9)) )".toList = .ok y ∧
      y.unsignedZero = Decimal.toBinary64 false ⟨4, 0⟩ := by
  obtain ⟨y, hy, hsame⟩ := evaluate_parenthesized (Evaluator.mk .legacy .standard)
    "3 - (2-√(9)) ".toList (x := Decimal.toBinary64 false ⟨4, 0⟩) (by decide) (by decide +kernel)
    (by decide) (by decide)
  exact ⟨y, hy, hsame.trans (by decide +kernel)⟩

end DeskCalculator
