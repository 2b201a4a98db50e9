import DeskCalculator.Evaluator.Basic
import DeskCalculator.Proofs.Literal.Sign
import DeskCalculator.Proofs.Parens.Balance

/-!
# The checks before an evaluation

The order of the checks, spelt out: an empty text, the length, a literal, the parentheses and the
depth, and only then the mode.
-/

namespace DeskCalculator

namespace Evaluator

/-- The value of a text that is normalized and not empty. -/
def evaluateNormalized (ev : Evaluator) (t : Text) : Outcome Binary64 :=
  if ev.limits.maxLength < t.length then .error (.tooLong t.length ev.limits.maxLength)
  else
    match literal? t with
    | .error e => .error e
    | .ok (some value) => .ok value
    | .ok none =>
      match Parens.scan? t with
      | none => .error .mismatchedParentheses
      | some parens =>
        if ev.limits.maxDepth < parens.depth then
          .error (.tooDeep parens.depth ev.limits.maxDepth)
        else ev.mode.evaluate t

/-- The value of a text is settled by its normal form. -/
theorem evaluate_congr (ev : Evaluator) {s t : Text} (h : normalize s = normalize t) :
    ev.evaluate s = ev.evaluate t := by
  unfold evaluate
  rw [h]

theorem evaluate_of_normalize_eq_nil (ev : Evaluator) {s : Text} (h : normalize s = []) :
    ev.evaluate s = .ok .zero := by
  rw [evaluate, h]
  rfl

theorem evaluate_of_normalize_ne_nil (ev : Evaluator) {s : Text} (h : normalize s ≠ []) :
    ev.evaluate s = ev.evaluateNormalized (normalize s) := by
  rw [evaluate, precheck, if_neg h, evaluateNormalized, Limits.checkLength]
  split
  next => rfl
  next =>
    cases literal? (normalize s) with
    | error e => rfl
    | ok value =>
      cases value with
      | some value => rfl
      | none =>
        cases Parens.scan? (normalize s) with
        | none => rfl
        | some parens =>
          by_cases hdepth : ev.limits.maxDepth < parens.depth
          · simp only [Limits.checkDepth, hdepth, if_true]
            rfl
          · simp only [Limits.checkDepth, hdepth, if_false]
            rfl

/-! ## Where the checks end -/

section

variable {ev : Evaluator} {t : Text}

theorem evaluateNormalized_of_long (h : ev.limits.maxLength < t.length) :
    ev.evaluateNormalized t = .error (.tooLong t.length ev.limits.maxLength) := by
  rw [evaluateNormalized, if_pos h]

theorem evaluateNormalized_of_literal (hlength : t.length ≤ ev.limits.maxLength) {l : Literal}
    (h : Literal.ofText? t = some l) :
    ev.evaluateNormalized t = if l.value.isFinite then .ok l.value else .error .overflow := by
  rw [evaluateNormalized, if_neg (Nat.not_lt.2 hlength), literal?_of_ofText? h]
  by_cases hfinite : l.value.isFinite = true
  · rw [if_pos hfinite, if_pos hfinite]
  · rw [if_neg hfinite, if_neg hfinite]

theorem evaluateNormalized_of_literal? (hlength : t.length ≤ ev.limits.maxLength) {x : Binary64}
    (h : literal? t = .ok (some x)) : ev.evaluateNormalized t = .ok x := by
  rw [evaluateNormalized, if_neg (Nat.not_lt.2 hlength), h]

variable (hlength : t.length ≤ ev.limits.maxLength) (hliteral : Literal.ofText? t = none)

include hlength hliteral

theorem evaluateNormalized_of_unbalanced (h : ¬ Balanced t) :
    ev.evaluateNormalized t = .error .mismatchedParentheses := by
  rw [evaluateNormalized, if_neg (Nat.not_lt.2 hlength), literal?_eq_ok_none_iff.2 hliteral,
    Parens.scan?_eq_none_iff.2 h]

theorem evaluateNormalized_of_balanced (h : Balanced t) :
    ev.evaluateNormalized t =
      if ev.limits.maxDepth < nesting t then .error (.tooDeep (nesting t) ev.limits.maxDepth)
      else ev.mode.evaluate t := by
  obtain ⟨m, hm⟩ := Option.isSome_iff_exists.1 (Parens.isSome_scan?_iff.2 h)
  rw [evaluateNormalized, if_neg (Nat.not_lt.2 hlength), literal?_eq_ok_none_iff.2 hliteral, hm,
    ← Parens.depth_of_scan? hm]

theorem evaluateNormalized_of_shallow (h : Balanced t) (hdepth : nesting t ≤ ev.limits.maxDepth) :
    ev.evaluateNormalized t = ev.mode.evaluate t := by
  rw [evaluateNormalized_of_balanced hlength hliteral h, if_neg (Nat.not_lt.2 hdepth)]

end

theorem literal?_or_eq_none {ev : Evaluator} {t : Text} {x : Binary64}
    (h : ev.evaluateNormalized t = .ok x) :
    literal? t = .ok (some x) ∨ Literal.ofText? t = none := by
  unfold evaluateNormalized at h
  split at h
  next => cases h
  next =>
    split at h
    next => cases h
    next value hvalue =>
      obtain rfl := Except.ok.inj h
      exact .inl hvalue
    next hnone => exact .inr (literal?_eq_ok_none_iff.1 hnone)

theorem evaluateNormalized_eq_ok {ev : Evaluator} {t : Text} {x : Binary64}
    (hliteral : Literal.ofText? t = none) (h : ev.evaluateNormalized t = .ok x) :
    Balanced t ∧ nesting t ≤ ev.limits.maxDepth ∧ ev.mode.evaluate t = .ok x := by
  by_cases hlength : t.length ≤ ev.limits.maxLength
  · by_cases hbalanced : Balanced t
    · rw [evaluateNormalized_of_balanced hlength hliteral hbalanced] at h
      split at h
      next => cases h
      next hdepth => exact ⟨hbalanced, Nat.not_lt.1 hdepth, h⟩
    · rw [evaluateNormalized_of_unbalanced hlength hliteral hbalanced] at h
      cases h
  · rw [evaluateNormalized_of_long (Nat.not_le.1 hlength)] at h
    cases h

section

variable (ev : Evaluator) {s t : Text} (hnormal : normalize s = t) (hne : t ≠ [])
  (hlength : t.length ≤ ev.limits.maxLength)

include hnormal hne hlength

theorem evaluate_of_literal? {x : Binary64} (h : literal? t = .ok (some x)) :
    ev.evaluate s = .ok x := by
  rw [ev.evaluate_of_normalize_ne_nil (by rwa [hnormal]), hnormal,
    evaluateNormalized_of_literal? hlength h]

theorem evaluate_of_shallow (hliteral : Literal.ofText? t = none) (h : Balanced t)
    (hdepth : nesting t ≤ ev.limits.maxDepth) : ev.evaluate s = ev.mode.evaluate t := by
  rw [ev.evaluate_of_normalize_ne_nil (by rwa [hnormal]), hnormal,
    evaluateNormalized_of_shallow hlength hliteral h hdepth]

end

end Evaluator

end DeskCalculator
