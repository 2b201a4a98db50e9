import DeskCalculator.Evaluator.Basic
import DeskCalculator.Proofs.Expr.Rendering

/-!
# Literals in both modes

A literal is answered before the mode comes into play. Nothing depends on this: both modes come to what the
literal comes to, its value or an overflow (`literal?_agrees_with_modes`). The parser sees one number
behind a sign or none (`tokenize_of_ofText?`), and to negate that number is to read the literal with its minus
sign, also for a zero; a reduction looks for a literal first.
-/

namespace DeskCalculator

theorem Expr.parse_of_ofText? {t : Text} {l : Literal} (h : Literal.ofText? t = some l) :
    ∃ e : Expr, e.eval = .ok l.value ∧
      parse t = if l.value.isFinite then .ok e else .error .overflow := by
  obtain ⟨signs, x, hsigns, hvalue, htokens⟩ := tokenize_of_ofText? h
  refine ⟨(number x).withSigns signs, ?_, ?_⟩
  · rw [withSigns, hvalue]
    by_cases hcount : signs.count .subtract % 2 = 1
    · rw [if_pos hcount, if_pos hcount]
      rfl
    · rw [if_neg hcount, if_neg hcount]
      rfl
  · rw [parse, htokens]
    split
    next => exact ofTokens_of_derives (.ofProduct (.ofSigned (.signed hsigns (.number x))))
    next => rfl

theorem Reduction.eval_of_ofText? {t : Text} {l : Literal} (h : Literal.ofText? t = some l) :
    (ofText t).eval = if l.value.isFinite then .ok l.value else .error .overflow := by
  rw [ofText, literal?_of_ofText? h]
  by_cases hx : l.value.isFinite = true
  · simp only [if_pos hx]
    rfl
  · simp only [if_neg hx]
    rfl

theorem Mode.evaluate_of_ofText? (mode : Mode) {t : Text} {l : Literal} (h : Literal.ofText? t = some l) :
    mode.evaluate t = if l.value.isFinite then .ok l.value else .error .overflow := by
  cases mode with
  | standard =>
    obtain ⟨e, heval, hparse⟩ := Expr.parse_of_ofText? h
    rw [evaluate, hparse]
    split
    next => exact heval
    next => rfl
  | legacy =>
    rw [evaluate, Text.trim_of_isGraphic (isGraphic_of_ofText? h)]
    exact Reduction.eval_of_ofText? h

theorem Mode.evaluate_of_literal? (mode : Mode) {t : Text} {x : Binary64} (h : literal? t = .ok (some x)) :
    mode.evaluate t = .ok x := by
  obtain ⟨l, hl, rfl, hfinite⟩ := literal?_eq_ok_some_iff.1 h
  rw [mode.evaluate_of_ofText? hl, if_pos hfinite]

/-- **To answer a literal at once changes nothing.** If a text is a literal with a finite value, then it is an
expression with that value, and both modes evaluate the text to it, with the sign of a zero. If it is a
literal without a finite value, then the reading of the expression and both modes overflow, too. -/
theorem literal?_agrees_with_modes (t : Text) :
    (∀ x, literal? t = .ok (some x) →
        (∃ e, Expr.parse t = .ok e ∧ e.eval = .ok x) ∧ ∀ mode : Mode, mode.evaluate t = .ok x) ∧
      ∀ err, literal? t = .error err →
        err = .overflow ∧ Expr.parse t = .error .overflow ∧
          ∀ mode : Mode, mode.evaluate t = .error .overflow := by
  cases hl : Literal.ofText? t with
  | none =>
    rw [literal?_eq_ok_none_iff.2 hl]
    exact ⟨nofun, nofun⟩
  | some l =>
    obtain ⟨e, heval, hparse⟩ := Expr.parse_of_ofText? hl
    have hmode (mode : Mode) := mode.evaluate_of_ofText? hl
    rw [literal?_of_ofText? hl, hparse]
    by_cases hfinite : l.value.isFinite = true
    · rw [if_pos hfinite, if_pos hfinite]
      refine ⟨fun x hx => ?_, nofun⟩
      obtain rfl := Option.some.inj (Except.ok.inj hx)
      exact ⟨⟨e, rfl, heval⟩, fun mode => (hmode mode).trans (if_pos hfinite)⟩
    · rw [if_neg hfinite, if_neg hfinite]
      refine ⟨nofun, fun err herr => ?_⟩
      exact ⟨(Except.error.inj herr).symm, rfl, fun mode => (hmode mode).trans (if_neg hfinite)⟩

/-- The theorem at `-.0`, of which the sign is kept, and at `10 ^ 309`, which overflows. -/
theorem literal?_agrees_with_modes_zero_and_overflow :
    let zero := "-.0".toList
    let large := '1' :: List.replicate 309 '0'
    (literal? zero = .ok (some (.finite true .zero)) ∧
        ∀ mode : Mode, mode.evaluate zero = .ok (.finite true .zero)) ∧
      literal? large = .error .overflow ∧ ∀ mode : Mode, mode.evaluate large = .error .overflow := by
  intro zero large
  have hzero : literal? zero = .ok (some (.finite true .zero)) := by decide +kernel
  have hlarge : literal? large = .error .overflow := by decide +kernel
  obtain ⟨-, hvalue⟩ := (literal?_agrees_with_modes zero).1 _ hzero
  obtain ⟨-, -, hoverflow⟩ := (literal?_agrees_with_modes large).2 _ hlarge
  exact ⟨⟨hzero, hvalue⟩, hlarge, hoverflow⟩

end DeskCalculator
