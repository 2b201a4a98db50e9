import DeskCalculator.Proofs.Evaluator.Arithmetic
import DeskCalculator.Proofs.Evaluator.Checks
import DeskCalculator.Proofs.Expr.Reading
import DeskCalculator.Proofs.Reduction.Parens
import DeskCalculator.Proofs.Token.Inventory

/-!
# Structural errors

The length, the parentheses and the depth of a text decide which structural error its evaluation
ends with, if any, in either mode (`evaluate_classified`). The checks report these errors; what
remains is that the evaluation of a balanced text reports none of its own. The parser misses a
closing parenthesis only at a place with a group open, and the tokens of a balanced text leave none
open (`notStructural_parse`). A reduction scans each text on its way, and each is balanced if the
first one is (`notStructural_reduction`).
-/

namespace DeskCalculator

/-- The errors that tell about the text alone. -/
def CalcError.IsStructural : CalcError → Prop
  | mismatchedParentheses | tooLong .. | tooDeep .. => True
  | _ => False

/-- The outcome is no structural error. -/
def NotStructural {α : Type} (o : Outcome α) : Prop := ∀ e, o = .error e → ¬ e.IsStructural

section

variable {α β : Type}

theorem notStructural_ok (x : α) : NotStructural (.ok x : Outcome α) := failsWith_ok x

theorem notStructural_error {e : CalcError} (h : ¬ e.IsStructural) :
    NotStructural (.error e : Outcome α) := failsWith_error h

theorem notStructural_invalid (fault : Fault) :
    NotStructural (.error (.invalid fault) : Outcome α) := notStructural_error id

theorem NotStructural.bind {o : Outcome α} {f : α → Outcome β} (h : NotStructural o)
    (hf : ∀ x, o = .ok x → NotStructural (f x)) : NotStructural (o >>= f) := FailsWith.bind h hf

theorem notStructural_mapM {f : α → Outcome β} (h : ∀ x, NotStructural (f x)) (xs : List α) :
    NotStructural (xs.mapM f) := by
  induction xs with
  | nil => exact notStructural_ok []
  | cons x xs ih =>
    rw [List.mapM_cons]
    exact (h x).bind fun y _ => ih.bind fun ys _ => notStructural_ok _

theorem CalcError.IsArithmetic.not_isStructural {e : CalcError} (h : e.IsArithmetic) :
    ¬ e.IsStructural := by
  cases e with
  | mismatchedParentheses | tooLong | tooDeep => exact h.elim
  | _ => exact id

theorem notStructural_of_isArithmetic {o : Outcome α} (h : FailsWith CalcError.IsArithmetic o) :
    NotStructural o := h.imp fun _ he => he.not_isStructural

end

/-! ## Expressions -/

theorem notStructural_token (x : Lexeme) : NotStructural x.token := by
  cases x with
  | numeral t =>
    rw [Lexeme.token]
    split
    next e h => exact notStructural_error (failsWith_literal? t e h).not_isStructural
    next => exact notStructural_invalid _
    next => exact notStructural_ok _
  | word t =>
    rw [Lexeme.token]
    split
    · exact notStructural_ok _
    · exact notStructural_invalid _
  | mark c =>
    rw [Lexeme.token]
    split
    · exact notStructural_ok _
    · split
      · exact notStructural_ok _
      · split
        · exact notStructural_ok _
        · exact notStructural_invalid _

theorem depth_of_balanced {t : Text} {ts : List Token} {p : Place} (h : Balanced t)
    (hts : tokenize t = .ok ts) (hp : Place.start.run ts = some p) : p.depth = 0 := by
  have hcount := count_of_tokenize hts
  have hdepth := Place.depth_of_run hp
  have htotal := h.2
  rw [hcount.1, hcount.2, htotal] at hdepth
  simp only [Place.start] at hdepth
  omega

theorem notStructural_parse {t : Text} (h : Balanced t) : NotStructural (Expr.parse t) := by
  have htokens : NotStructural (tokenize t) := by
    rw [tokenize_eq_mapM]
    exact notStructural_mapM notStructural_token _
  refine htokens.bind fun ts hts e he => ?_
  rcases ofTokens_eq_error he with ⟨fault, -, rfl⟩ | ⟨-, k, hk⟩
  · exact id
  · have hdepth := depth_of_balanced h hts hk
    cases hdepth

/-! ## Reductions -/

theorem notStructural_split (t : Text) : NotStructural (Split.ofText t).eval := by
  fun_induction Split.ofText t with
  | case1 => exact notStructural_invalid _
  | case2 t _ e h => exact notStructural_error (failsWith_literal? _ e h).not_isStructural
  | case3 => exact notStructural_ok _
  | case4 => exact notStructural_invalid _
  | case5 t _ _ op left right _ ihl ihr =>
    exact ihl.bind fun _ _ => ihr.bind fun _ _ =>
      notStructural_of_isArithmetic (failsWith_apply _ _ _)

theorem notStructural_value (g : Group) : NotStructural g.value := by
  have hcheck : NotStructural g.checkNeighbours := by
    unfold Group.checkNeighbours
    split
    · exact notStructural_invalid _
    · split
      · exact notStructural_invalid _
      · exact notStructural_ok _
  refine hcheck.bind fun _ _ => (notStructural_split _).bind fun y _ => ?_
  split
  · exact notStructural_of_isArithmetic (failsWith_squareRoot y)
  · exact notStructural_ok y

theorem notStructural_reduction {t : Text} (h : Balanced t) :
    NotStructural (Reduction.ofText t).eval := by
  fun_induction Reduction.ofText t with
  | case1 t e hliteral =>
    exact notStructural_error (failsWith_literal? t e hliteral).not_isStructural
  | case2 => exact notStructural_ok _
  | case3 t _ hscan => exact absurd h (Parens.scan?_eq_none_iff.1 (Option.isNone_iff_eq_none.1 hscan))
  | case4 t => exact notStructural_split t
  | case5 t _ _ g _ e hresolve =>
    exact notStructural_error (notStructural_value g e (Group.resolve_eq_error_iff.1 hresolve))
  | case6 t _ _ g hgroup result hresolve ih =>
    refine ih (balanced_trim_iff.2 ?_)
    obtain ⟨x, -, rfl⟩ := Group.resolve_eq_ok_iff.1 hresolve
    rw [Group.balanced_splice_iff, Group.text_of_first? hgroup]
    exact h

theorem notStructural_mode (mode : Mode) {t : Text} (h : Balanced t) :
    NotStructural (mode.evaluate t) := by
  cases mode with
  | standard =>
    exact (notStructural_parse h).bind fun e _ => notStructural_of_isArithmetic (failsWith_eval e)
  | legacy => exact notStructural_reduction (balanced_trim_iff.2 h)

/-! ## Every evaluation -/

namespace Evaluator

variable {ev : Evaluator} {t : Text}

section

variable (hlength : t.length ≤ ev.limits.maxLength) (hliteral : Literal.ofText? t = none)

include hlength hliteral

theorem mismatched_iff :
    ev.evaluateNormalized t = .error .mismatchedParentheses ↔ ¬ Balanced t := by
  refine ⟨fun herror h => ?_, evaluateNormalized_of_unbalanced hlength hliteral⟩
  rw [evaluateNormalized_of_balanced hlength hliteral h] at herror
  split at herror
  next => cases herror
  next => exact notStructural_mode ev.mode h _ herror trivial

theorem tooDeep_iff (h : Balanced t) (d m : Nat) :
    ev.evaluateNormalized t = .error (.tooDeep d m) ↔
      ev.limits.maxDepth < nesting t ∧ d = nesting t ∧ m = ev.limits.maxDepth := by
  rw [evaluateNormalized_of_balanced hlength hliteral h]
  split
  next hdeep =>
    simp only [Except.error.injEq, CalcError.tooDeep.injEq, hdeep, true_and]
    exact and_congr eq_comm eq_comm
  next hdeep =>
    constructor
    · intro herror
      exact absurd trivial (notStructural_mode ev.mode h _ herror)
    · rintro ⟨hdeep', -, -⟩
      exact absurd hdeep' hdeep

end

theorem tooLong_iff (n m : Nat) :
    ev.evaluateNormalized t = .error (.tooLong n m) ↔
      ev.limits.maxLength < t.length ∧ n = t.length ∧ m = ev.limits.maxLength := by
  by_cases hlong : ev.limits.maxLength < t.length
  · rw [evaluateNormalized_of_long hlong]
    simp only [Except.error.injEq, CalcError.tooLong.injEq, hlong, true_and]
    exact and_congr eq_comm eq_comm
  · have hlength := Nat.not_lt.1 hlong
    refine ⟨fun herror => ?_, fun h => absurd h.1 hlong⟩
    cases hliteral : Literal.ofText? t with
    | some l =>
      rw [evaluateNormalized_of_literal hlength hliteral] at herror
      split at herror <;> cases herror
    | none =>
      by_cases hbalanced : Balanced t
      · rw [evaluateNormalized_of_balanced hlength hliteral hbalanced] at herror
        split at herror
        next => cases herror
        next => exact absurd trivial (notStructural_mode ev.mode hbalanced _ herror)
      · rw [evaluateNormalized_of_unbalanced hlength hliteral hbalanced] at herror
        cases herror

end Evaluator

/-- **The structural errors of an evaluation.** For a normalized text `e` that is not empty, the
length is checked first; then a literal has its value or overflows; then the parentheses have to
match, and then the nesting is checked. A text that passes is evaluated without a structural error,
and the limits that let it pass do not matter; neither the parser nor any scan of a reduction reports
unmatched parentheses. -/
theorem evaluate_classified (ev : Evaluator) (s : Text) :
    let e := normalize s
    (e = [] → ev.evaluate s = .ok .zero) ∧
      (e ≠ [] →
        (∀ n m, ev.evaluate s = .error (.tooLong n m) ↔
          ev.limits.maxLength < e.length ∧ n = e.length ∧ m = ev.limits.maxLength) ∧
        (e.length ≤ ev.limits.maxLength →
          (∀ l, Literal.ofText? e = some l →
            ev.evaluate s = if l.value.isFinite then .ok l.value else .error .overflow) ∧
          (Literal.ofText? e = none →
            (ev.evaluate s = .error .mismatchedParentheses ↔ ¬ Balanced e) ∧
            (Balanced e →
              (∀ d m, ev.evaluate s = .error (.tooDeep d m) ↔
                ev.limits.maxDepth < nesting e ∧ d = nesting e ∧ m = ev.limits.maxDepth) ∧
              (nesting e ≤ ev.limits.maxDepth →
                NotStructural (ev.evaluate s) ∧
                ∀ limits : Limits, e.length ≤ limits.maxLength → nesting e ≤ limits.maxDepth →
                  (Evaluator.mk ev.mode limits).evaluate s = ev.evaluate s))))) ∧
      (Balanced e → Expr.parse e ≠ .error .mismatchedParentheses ∧
        (Reduction.ofText (Text.trim e)).eval ≠ .error .mismatchedParentheses) := by
  intro e
  refine ⟨ev.evaluate_of_normalize_eq_nil, fun hne => ?_, fun hbalanced => ?_⟩
  · rw [ev.evaluate_of_normalize_ne_nil hne]
    refine ⟨Evaluator.tooLong_iff, fun hlength => ⟨fun l hl => ?_, fun hliteral => ?_⟩⟩
    · exact Evaluator.evaluateNormalized_of_literal hlength hl
    · refine ⟨Evaluator.mismatched_iff hlength hliteral, fun hbalanced => ?_⟩
      refine ⟨Evaluator.tooDeep_iff hlength hliteral hbalanced, fun hdepth => ?_⟩
      rw [Evaluator.evaluateNormalized_of_shallow hlength hliteral hbalanced hdepth]
      refine ⟨notStructural_mode ev.mode hbalanced, fun limits hlength' hdepth' => ?_⟩
      rw [Evaluator.evaluate_of_normalize_ne_nil _ hne]
      exact Evaluator.evaluateNormalized_of_shallow hlength' hliteral hbalanced hdepth'
  · refine ⟨fun h => ?_, fun h => ?_⟩
    · exact notStructural_parse hbalanced _ h trivial
    · exact notStructural_reduction (balanced_trim_iff.2 hbalanced) _ h trivial

end DeskCalculator
