import DeskCalculator.Proofs.Evaluator.Checks
import DeskCalculator.Proofs.Reduction.Context

/-!
# The modes agree on full parentheses

The modes read one text in two ways, and they differ where precedence decides. An expression with
parentheses around each operation leaves nothing to precedence, and on its text both modes come to
the outcome of the expression (`evaluate_render`).
-/

namespace DeskCalculator

open Binary64 (unsignedZero)

theorem Expr.render_ne_nil {e : Expr} (he : e.HasClearSigns) : e.render ≠ [] := by
  cases e with
  | number value =>
    obtain ⟨m, rfl⟩ := he
    exact Split.plain_ne_nil rfl
  | negate operand => simp [render]
  | binary left op right => simp [render]
  | root operand => simp [render]

/-- **Both modes evaluate the text of an expression to the outcome of the expression**, be it a value
or an error, where the reduction leaves out the sign of a zero. -/
theorem evaluate_render (e : Expr) (limits : Limits) (he : e.HasClearSigns)
    (hlength : e.render.length ≤ limits.maxLength) (hdepth : nesting e.render ≤ limits.maxDepth) :
    (Evaluator.mk .standard limits).evaluate e.render = e.eval ∧
      (Evaluator.mk .legacy limits).evaluate e.render = e.eval.map unsignedZero := by
  have hnormal := normalize_render he
  have hne : normalize e.render ≠ [] := by
    rw [hnormal]
    exact Expr.render_ne_nil he
  rw [Evaluator.evaluate_of_normalize_ne_nil _ hne, Evaluator.evaluate_of_normalize_ne_nil _ hne,
    hnormal]
  by_cases hnumber : ∃ value, e = .number value
  · obtain ⟨value, rfl⟩ := hnumber
    obtain ⟨m, rfl⟩ := he
    have hread := literal?_plain (x := .finite false m) rfl
    rw [unsignedZero_of_clear_sign] at hread
    have hvalue (ev : Evaluator) (h : ev.limits = limits) :
        ev.evaluateNormalized (Expr.number (.finite false m)).render = .ok (.finite false m) :=
      Evaluator.evaluateNormalized_of_literal? (by rwa [h]) hread
    refine ⟨hvalue _ rfl, (hvalue _ rfl).trans ?_⟩
    exact congrArg Except.ok (unsignedZero_of_clear_sign m).symm
  · have hliteral := ofText?_render fun value h => hnumber ⟨value, h⟩
    have hbalanced := (neutral_render e).balanced
    have hmode (ev : Evaluator) (h : ev.limits = limits) :
        ev.evaluateNormalized e.render = ev.mode.evaluate e.render :=
      Evaluator.evaluateNormalized_of_shallow (by rwa [h]) hliteral hbalanced (by rwa [h])
    constructor
    · rw [hmode _ rfl, Mode.evaluate, parse_render he]
      rfl
    · rw [hmode _ rfl, Mode.evaluate, Text.trim_of_isGraphic (isGraphic_render he)]
      exact Reduction.eval_render he

/-- A value below zero behind a minus sign, in `(1-(2-5))`. -/
theorem evaluate_render_turned_sign :
    let one : Expr := .number (.finite false ⟨4607182418800017408, by decide⟩)
    let two : Expr := .number (.finite false ⟨4611686018427387904, by decide⟩)
    let five : Expr := .number (.finite false ⟨4617315517961601024, by decide⟩)
    let e := Expr.binary one .subtract (.binary two .subtract five)
    e.HasClearSigns ∧ e.render = "(1-(2-5))".toList ∧
      (Evaluator.mk .standard .standard).evaluate e.render = e.eval ∧
        (Evaluator.mk .legacy .standard).evaluate e.render = e.eval.map unsignedZero := by
  intro one two five e
  have he : e.HasClearSigns := ⟨⟨_, rfl⟩, ⟨_, rfl⟩, ⟨_, rfl⟩⟩
  have htext : e.render = "(1-(2-5))".toList := by decide +kernel
  refine ⟨he, htext, evaluate_render e .standard he ?_ ?_⟩
  · rw [htext]
    decide
  · rw [htext]
    decide

end DeskCalculator
