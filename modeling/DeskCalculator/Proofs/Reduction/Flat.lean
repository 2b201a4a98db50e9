import DeskCalculator.Proofs.Expr.Rendering
import DeskCalculator.Reduction.Split

/-!
# Flat texts of one operation

The texts that stand in a group with one operation left: a plain number with a sign in front
(`Split.eval_minus`, `Split.eval_plus`), and two plain numbers with an operator between them
(`Split.eval_binary`), of which the second has no sign that the cut could take for the operator.
-/

namespace DeskCalculator

open Literal (isNumeral)

/-! ## Cutting -/

theorem symbol_injective {o op : Operator} (h : o.symbol = op.symbol) : o = op := by
  have ho := Operator.ofSymbol?_eq_some_iff.2 h
  rw [Operator.ofSymbol?_eq_some_iff.2 rfl] at ho
  exact Option.some.inj ho

theorem not_isBlank_symbol (op : Operator) : Text.isBlank op.symbol = false := by
  cases op <;> decide

theorem cutAt?_of_not_mem {op : Operator} {t : Text} (h : op.symbol ∉ t) : cutAt? op t = none := by
  rw [cutAt?, Text.splitLast?_eq_none_iff.2 h]

theorem cutAt?_append_symbol {op : Operator} {l r : Text} (hl : l ≠ []) (hr : op.symbol ∉ r) :
    cutAt? op (l ++ op.symbol :: r) = some (op, l, r) := by
  obtain ⟨c, l, rfl⟩ := List.exists_cons_of_ne_nil hl
  rw [cutAt?, Text.splitLast?_append_cons hr]

/-- The cut is at the operator if no other one is there but a minus. -/
theorem cut?_append_symbol {op : Operator} {l r : Text} (hl : l ≠ []) (hr : op.symbol ∉ r)
    (hother : ∀ o : Operator, o ≠ op → o ≠ .subtract → o.symbol ∉ l ++ op.symbol :: r) :
    cut? (l ++ op.symbol :: r) = some (op, l, r) := by
  have hhere := cutAt?_append_symbol hl hr
  have hnone (o : Operator) (h : o ≠ op) (h' : o ≠ .subtract) :
      cutAt? o (l ++ op.symbol :: r) = none := cutAt?_of_not_mem (hother o h h')
  unfold cut? Operator.scanOrder
  cases op with
  | multiply => simp only [List.findSome?, hhere]
  | divide =>
    have hmultiply := hnone .multiply (by decide) (by decide)
    simp only [List.findSome?, hhere, hmultiply]
  | add =>
    have hmultiply := hnone .multiply (by decide) (by decide)
    have hdivide := hnone .divide (by decide) (by decide)
    simp only [List.findSome?, hhere, hmultiply, hdivide]
  | subtract =>
    have hmultiply := hnone .multiply (by decide) (by decide)
    have hdivide := hnone .divide (by decide) (by decide)
    have hadd := hnone .add (by decide) (by decide)
    simp only [List.findSome?, hhere, hmultiply, hdivide, hadd]

namespace Split

theorem eval_of_literal?_trim {t : Text} {x : Binary64}
    (h : literal? (Text.trim t) = .ok (some x)) : (ofText t).eval = .ok x := by
  have hne : Text.trim t ≠ [] := by
    intro hnil
    rw [hnil] at h
    cases h
  rw [ofText, if_neg hne, h]
  rfl

theorem eval_of_literal? {t : Text} {x : Binary64} (ht : Text.IsGraphic t)
    (h : literal? t = .ok (some x)) : (ofText t).eval = .ok x :=
  eval_of_literal?_trim (by rwa [Text.trim_of_isGraphic ht])

theorem eval_of_cut?_trim {t left right : Text} {op : Operator}
    (h : literal? (Text.trim t) = .ok none) (hcut : cut? (Text.trim t) = some (op, left, right)) :
    (ofText t).eval =
      (ofText left).eval >>= fun x => (ofText right).eval >>= fun y => op.apply x y := by
  have hne : Text.trim t ≠ [] := by
    intro hnil
    rw [hnil] at hcut
    cases hcut
  rw [ofText, if_neg hne, h]
  dsimp only
  split
  next hnone =>
    rw [hnone] at hcut
    cases hcut
  next hsome =>
    rw [hsome] at hcut
    obtain ⟨rfl, rfl, rfl⟩ := Prod.mk.inj (Option.some.inj hcut)
    rfl

theorem eval_of_cut? {t left right : Text} {op : Operator} (ht : Text.IsGraphic t)
    (h : Literal.ofText? t = none) (hcut : cut? t = some (op, left, right)) :
    (ofText t).eval =
      (ofText left).eval >>= fun x => (ofText right).eval >>= fun y => op.apply x y := by
  have htrim := Text.trim_of_isGraphic ht
  exact eval_of_cut?_trim (by rwa [htrim, literal?_eq_ok_none_iff]) (by rwa [htrim])

theorem eval_plain {x : Binary64} (hx : x.isFinite = true) :
    (ofText x.plain).eval = .ok x.unsignedZero :=
  eval_of_literal? (isGraphic_plain hx) (literal?_plain hx)

theorem eval_minus {x : Binary64} (hx : x.isFinite = true) (h : x.isBelowZero = false) :
    (ofText ('-' :: x.plain)).eval = .ok x.unsignedZero.neg :=
  eval_of_literal? ((isGraphic_plain hx).cons (by decide))
    (literal?_minus (isUnsigned_plain hx h) (literal?_plain hx))

theorem eval_plus {x : Binary64} (hx : x.isFinite = true) (h : x.isBelowZero = false) :
    (ofText ('+' :: x.plain)).eval = .ok x.unsignedZero :=
  eval_of_literal? ((isGraphic_plain hx).cons (by decide))
    ((literal?_plus (isUnsigned_plain hx h)).trans (literal?_plain hx))

theorem plain_ne_nil {x : Binary64} (hx : x.isFinite = true) : x.plain ≠ [] := by
  intro h
  have hread := literal?_plain hx
  rw [h] at hread
  cases hread

/-- The operators of a plain number are signs. -/
theorem symbol_not_mem_plain {x : Binary64} (hx : x.isFinite = true) {op : Operator}
    (h : op ≠ .subtract ∨ x.isBelowZero = false) : op.symbol ∉ x.plain := by
  intro hmem
  have hmark : isNumeral op.symbol = false := (isMark_symbol op).1
  rcases h with h | h
  · rcases mem_plain hx hmem with hnumeral | hminus
    · rw [hnumeral] at hmark
      cases hmark
    · exact h (by cases op <;> first | rfl | cases hminus)
  · rw [Literal.isNumeral_of_isUnsigned (isUnsigned_plain hx h) hmem] at hmark
    cases hmark

theorem eval_binary {x y : Binary64} {op : Operator} (hx : x.isFinite = true)
    (hy : y.isFinite = true) (h : op = .subtract → y.isBelowZero = false) :
    (ofText (x.plain ++ op.symbol :: y.plain)).eval = op.apply x.unsignedZero y.unsignedZero := by
  have hne := plain_ne_nil hx
  have hright : op.symbol ∉ y.plain := by
    by_cases hop : op = .subtract
    · exact symbol_not_mem_plain hy (.inr (h hop))
    · exact symbol_not_mem_plain hy (.inl hop)
  have hother (o : Operator) (ho : o ≠ op) (hminus : o ≠ .subtract) :
      o.symbol ∉ x.plain ++ op.symbol :: y.plain := by
    have hsymbol : o.symbol ≠ op.symbol := fun heq => ho (symbol_injective heq)
    simp only [List.mem_append, List.mem_cons, not_or]
    exact ⟨symbol_not_mem_plain hx (.inl hminus), hsymbol, symbol_not_mem_plain hy (.inl hminus)⟩
  have hgraphic := (isGraphic_plain hx).append ((isGraphic_plain hy).cons (isGraphic_symbol op))
  rw [eval_of_cut? hgraphic (Literal.ofText?_append_cons hne (isMark_symbol op).1 _)
    (cut?_append_symbol hne hright hother), eval_plain hx, eval_plain hy]
  rfl

end Split

end DeskCalculator
