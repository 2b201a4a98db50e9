import DeskCalculator.Proofs.Evaluator.Checks
import DeskCalculator.Proofs.Evaluator.Spelling
import DeskCalculator.Proofs.Expr.Reading
import DeskCalculator.Proofs.Expr.Rendering
import DeskCalculator.Proofs.Reduction.Flat

/-!
# Going on with a result

The result of an evaluation is written as a literal, and one more operator and an operand may be
written behind it. On such a text both modes apply the operator to the number that the literal is and
to the operand (`Evaluator.evaluate_continuation`): there is one operation only, so that neither the
precedence of the operators nor the order in which a flat text is cut comes into play.
-/

namespace DeskCalculator

open Literal (isNumeral)

/-! ## Signs of operators -/

/-- A sign for an operator: its symbol, or the sign that a keyboard lacks. -/
inductive Glyph where
  | symbol (op : Operator)
  | cross
  | obelus
  deriving DecidableEq

namespace Glyph

def char : Glyph → Char
  | symbol op => op.symbol
  | cross => '×'
  | obelus => '÷'

def operator : Glyph → Operator
  | symbol op => op
  | cross => .multiply
  | obelus => .divide

end Glyph

theorem normalize_glyph {l r : Text} (hl : Text.IsGraphic l) (hr : Text.IsGraphic r) (glyph : Glyph) :
    normalize (l ++ glyph.char :: r) = l ++ glyph.operator.symbol :: r := by
  have hkey : key glyph.char = glyph.operator.symbol := by
    cases glyph with
    | symbol op => cases op <;> decide
    | cross => decide
    | obelus => decide
  have hroot : glyph.char ≠ '√' := by
    cases glyph with
    | symbol op => cases op <;> decide
    | cross => decide
    | obelus => decide
  have hwhole : '√' ∉ l ++ glyph.char :: r := by
    have hgraphic (t : Text) (ht : Text.IsGraphic t) : '√' ∉ t :=
      Text.not_mem_of_isGraphic ht (by decide)
    simp [hgraphic l hl, hgraphic r hr, Ne.symm hroot]
  rw [normalize_eq, respell_of_not_mem hwhole, List.map_append, List.map_cons, map_key_of_isGraphic hl,
    map_key_of_isGraphic hr, hkey]
  exact Text.trim_of_isGraphic (hl.append (hr.cons (isGraphic_symbol _)))

/-! ## Literals without a plus sign -/

/-- The text is an unsigned literal with a minus sign in front or none, and the number is its value. -/
inductive Writes : Text → Binary64 → Prop
  | unsigned {t : Text} {x : Binary64} : Literal.isUnsigned t = true → literal? t = .ok (some x) →
      Writes t x
  | minus {t : Text} {x : Binary64} : Literal.isUnsigned t = true → literal? t = .ok (some x) →
      Writes ('-' :: t) x.neg

theorem writes_plain {x : Binary64} (hx : x.isFinite = true) : Writes x.plain x.unsignedZero := by
  cases h : x.isBelowZero with
  | false => exact .unsigned (isUnsigned_plain hx h) (literal?_plain hx)
  | true =>
    have hneg : x.neg.isFinite = true := by rwa [Binary64.isFinite_neg]
    have hzero := Binary64.isZero_of_isBelowZero h
    have hread := literal?_plain hneg
    rw [Binary64.unsignedZero_of_not_isZero (by rwa [Binary64.isZero_neg])] at hread
    have hwrites := Writes.minus (isUnsigned_plain hneg (Binary64.isBelowZero_neg h)) hread
    rw [← plain_of_isBelowZero hx h, Binary64.neg_neg] at hwrites
    rwa [Binary64.unsignedZero_of_not_isZero hzero]

namespace Writes

variable {t : Text} {x : Binary64}

theorem reads (h : Writes t x) : literal? t = .ok (some x) := by
  cases h with
  | unsigned _ hread => exact hread
  | minus hbody hread => exact literal?_minus hbody hread

theorem isFinite (h : Writes t x) : x.isFinite = true := isFinite_of_literal? h.reads

theorem ne_nil (h : Writes t x) : t ≠ [] := by
  cases h with
  | unsigned hbody => exact Literal.ne_nil_of_isUnsigned hbody
  | minus => simp

theorem isGraphic (h : Writes t x) : Text.IsGraphic t := by
  cases h with
  | unsigned hbody => exact isGraphic_of_isUnsigned hbody
  | minus hbody => exact (isGraphic_of_isUnsigned hbody).cons (by decide)

theorem not_mem (h : Writes t x) {c : Char} (hnumeral : isNumeral c = false) (hminus : c ≠ '-') :
    c ∉ t := by
  cases h with
  | unsigned ht => exact Literal.not_mem_of_isUnsigned ht hnumeral
  | minus ht =>
    rw [List.mem_cons, not_or]
    exact ⟨hminus, Literal.not_mem_of_isUnsigned ht hnumeral⟩

end Writes

/-! ## One operation -/

theorem nesting_of_not_mem {t : Text} (h : '(' ∉ t) : nesting t = 0 := by
  induction t with
  | nil => rfl
  | cons c t ih =>
    rw [List.mem_cons, not_or] at h
    rw [nesting, if_neg (Ne.symm h.1), ih h.2]
    split <;> rfl

theorem Reduction.eval_of_flat {t : Text} (hliteral : Literal.ofText? t = none) (hopening : '(' ∉ t)
    (hclosing : ')' ∉ t) : (ofText t).eval = (Split.ofText t).eval := by
  have hscan : (Parens.scan? t).isNone = false := by
    rw [Option.isNone_eq_false_iff]
    exact Parens.isSome_scan?_iff.2 (neutral_of_not_mem hopening hclosing).balanced
  rw [ofText, literal?_eq_ok_none_iff.2 hliteral]
  simp only [hscan, Bool.false_eq_true, if_false]
  split
  next => rfl
  next g hfirst => exact absurd (by simp [← Group.text_of_first? hfirst, Group.text]) hopening

theorem Reduction.eval_of_not_mem {t : Text} (htrim : Text.trim t = t) (hne : t ≠ [])
    (hopening : '(' ∉ t) (hclosing : ')' ∉ t) : (ofText t).eval = (Split.ofText t).eval := by
  cases hread : literal? t with
  | error e =>
    rw [ofText, hread, Split.ofText, htrim, if_neg hne, hread]
    rfl
  | ok value =>
    cases value with
    | none => exact eval_of_flat (literal?_eq_ok_none_iff.1 hread) hopening hclosing
    | some x =>
      rw [ofText, hread, Split.eval_of_literal?_trim (by rwa [htrim])]
      rfl

section

variable {l r : Text} {x y : Binary64} (hl : Writes l x) (hr : Literal.isUnsigned r = true)
  (hread : literal? r = .ok (some y)) (op : Operator)

include hl hr

theorem not_mem_continuation {c : Char} (hnumeral : isNumeral c = false) (hminus : c ≠ '-')
    (hop : c ≠ op.symbol) : c ∉ l ++ op.symbol :: r := by
  simp only [List.mem_append, List.mem_cons, not_or]
  exact ⟨hl.not_mem hnumeral hminus, hop, Literal.not_mem_of_isUnsigned hr hnumeral⟩

include hread

theorem parse_continuation :
    ∃ e, Expr.parse (l ++ op.symbol :: r) = .ok e ∧ e.eval = op.apply x y := by
  have hright := tokenize_of_isUnsigned hr hread
  obtain ⟨ts, e, hts, hderives, heval⟩ :
      ∃ ts e, tokenize l = .ok ts ∧ Derives .signed ts e ∧ e.eval = .ok x := by
    cases hl with
    | @unsigned _ x hbody hbodyRead =>
      exact ⟨_, _, tokenize_of_isUnsigned hbody hbodyRead, (Derives.number x).ofPrimary, rfl⟩
    | @minus body x hbody hbodyRead =>
      have htokens := tokenize_symbol_cons .subtract body
      rw [tokenize_of_isUnsigned hbody hbodyRead] at htokens
      have hsigns : ∀ op ∈ [Operator.subtract], op.IsAdditive := by simp [Operator.IsAdditive]
      exact ⟨_, _, htokens, .signed hsigns (.number x), rfl⟩
  have htokens : tokenize (l ++ op.symbol :: r) = .ok (ts ++ .operator op :: [.number y]) := by
    rw [tokenize_append_eq_ok_iff (apart_cons_of_isMark _ (isMark_symbol op) _),
      tokenize_symbol_cons, hright]
    exact ⟨ts, _, hts, rfl, rfl⟩
  have hnumber := (Derives.number y).ofPrimary
  refine ⟨.binary e op (.number y), ?_, ?_⟩
  · rw [Expr.parse, htokens]
    refine ofTokens_of_derives ?_
    rcases op.isAdditive_or_isMultiplicative with hop | hop
    · exact .sum (.ofProduct (.ofSigned hderives)) hop (.ofSigned hnumber)
    · exact .ofProduct (.product (.ofSigned hderives) hop hnumber)
  · rw [Expr.eval, heval]
    rfl

/-- **A mode applies the operator to the two numbers.** -/
theorem Mode.evaluate_continuation (mode : Mode) :
    mode.evaluate (l ++ op.symbol :: r) = op.apply x y := by
  have hright := Writes.unsigned hr hread
  have hliteral : Literal.ofText? (l ++ op.symbol :: r) = none :=
    Literal.ofText?_append_cons hl.ne_nil (isMark_symbol op).1 r
  have hsymbol : op.symbol ∉ r := Literal.not_mem_of_isUnsigned hr (isMark_symbol op).1
  cases mode with
  | standard =>
    obtain ⟨e, he, heval⟩ := parse_continuation hl hr hread op
    rw [Mode.evaluate, he]
    exact heval
  | legacy =>
    have hgraphic : Text.IsGraphic (l ++ op.symbol :: r) :=
      hl.isGraphic.append (hright.isGraphic.cons (isGraphic_symbol op))
    have hnot {c : Char} (hnumeral : isNumeral c = false) (hminus : c ≠ '-') (hop : c ≠ op.symbol) :
        c ∉ l ++ op.symbol :: r := not_mem_continuation hl hr op hnumeral hminus hop
    have hother (o : Operator) (ho : o ≠ op) (hminus : o ≠ .subtract) :
        o.symbol ∉ l ++ op.symbol :: r := by
      refine hnot (isMark_symbol o).1 ?_ fun h => ho (symbol_injective h)
      cases o <;> first | decide | exact absurd rfl hminus
    rw [Mode.evaluate, Text.trim_of_isGraphic hgraphic, Reduction.eval_of_flat hliteral
      (hnot (by decide) (by decide) (by cases op <;> decide))
      (hnot (by decide) (by decide) (by cases op <;> decide)),
      Split.eval_of_cut? hgraphic hliteral (cut?_append_symbol hl.ne_nil hsymbol hother),
      Split.eval_of_literal? hl.isGraphic hl.reads,
      Split.eval_of_literal? hright.isGraphic hread]
    rfl

end

namespace Evaluator

theorem evaluate_writes (ev : Evaluator) {t : Text} {x : Binary64} (h : Writes t x)
    (hlength : t.length ≤ ev.limits.maxLength) : ev.evaluate t = .ok x := by
  exact ev.evaluate_of_literal? (normalize_of_isGraphic h.isGraphic) h.ne_nil hlength h.reads

/-- **A literal with an operator and an operand behind it is one operation**, in both modes. -/
theorem evaluate_continuation (ev : Evaluator) {l r : Text} {x y : Binary64} (hl : Writes l x)
    (hr : Literal.isUnsigned r = true) (hread : literal? r = .ok (some y))
    (glyph : Glyph) (hlength : (l ++ glyph.char :: r).length ≤ ev.limits.maxLength) :
    ev.evaluate (l ++ glyph.char :: r) = glyph.operator.apply x y := by
  have hright := Writes.unsigned hr hread
  have hnormal := normalize_glyph hl.isGraphic hright.isGraphic glyph
  have hopening : '(' ∉ l ++ glyph.operator.symbol :: r :=
    not_mem_continuation hl hr _ (by decide) (by decide) (by cases glyph.operator <;> decide)
  have hclosing : ')' ∉ l ++ glyph.operator.symbol :: r :=
    not_mem_continuation hl hr _ (by decide) (by decide) (by cases glyph.operator <;> decide)
  have hliteral : Literal.ofText? (l ++ glyph.operator.symbol :: r) = none :=
    Literal.ofText?_append_cons hl.ne_nil (isMark_symbol _).1 r
  have hdepth : nesting (l ++ glyph.operator.symbol :: r) ≤ ev.limits.maxDepth := by
    rw [nesting_of_not_mem hopening]
    exact Nat.zero_le _
  rw [ev.evaluate_of_shallow hnormal (by simp) (by simpa using hlength) hliteral
    (neutral_of_not_mem hopening hclosing).balanced hdepth]
  exact Mode.evaluate_continuation hl hr hread glyph.operator ev.mode

end Evaluator

end DeskCalculator
