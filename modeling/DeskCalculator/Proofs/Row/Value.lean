import DeskCalculator.Proofs.Outcome
import DeskCalculator.Proofs.Row.Tiers

/-!
# The value of a row

A flat text is evaluated by cutting it at the last occurrence of the loosest operator that occurs
behind the first character (`cut?_eq_some_iff`). Signs are written like operators, and in a well-signed
row no cut goes to a sign: behind an operator a sign is written like a tighter one
(`Row.Joint.admits_iff`), so that the loosest operator written anywhere is an operator of the row
(`Row.cut?_text_join`). The cuts are then those of the tiered tree (`Row.Tree.eval_text`). The other way
round, the cuts of a text with a value put a well-signed row together (`Row.exists_of_eval`).
-/

namespace DeskCalculator

open Text (IsBlanks)

/-! ## Where a text is cut -/

theorem cutAt?_eq_some_iff {op o : Operator} {t left right : Text} :
    cutAt? op t = some (o, left, right) ↔
      o = op ∧ left ≠ [] ∧ t = left ++ op.symbol :: right ∧ op.symbol ∉ right := by
  constructor
  · intro h
    unfold cutAt? at h
    split at h
    next c before after hsplit =>
      obtain ⟨rfl, rfl, rfl⟩ := Prod.mk.inj (Option.some.inj h)
      exact ⟨rfl, List.cons_ne_nil _ _, Text.eq_append_of_splitLast? hsplit,
        Text.not_mem_after_splitLast? hsplit⟩
    next => cases h
  · rintro ⟨rfl, hne, rfl, hright⟩
    exact cutAt?_append_symbol hne hright

theorem cutAt?_eq_none_iff {op : Operator} {t : Text} : cutAt? op t = none ↔ op.symbol ∉ t.tail := by
  constructor
  · intro h
    unfold cutAt? at h
    split at h
    next => cases h
    next hsplit =>
      cases hlast : Text.splitLast? op.symbol t with
      | none => exact fun hmem => Text.splitLast?_eq_none_iff.1 hlast (List.mem_of_mem_tail hmem)
      | some parts =>
        obtain ⟨before, after⟩ := parts
        cases before with
        | nil =>
          rw [Text.eq_append_of_splitLast? hlast]
          exact Text.not_mem_after_splitLast? hlast
        | cons c before => exact absurd hlast (hsplit c before after)
  · intro h
    rw [Option.eq_none_iff_forall_ne_some]
    rintro ⟨o, left, right⟩ hcut
    obtain ⟨rfl, hne, rfl, -⟩ := cutAt?_eq_some_iff.1 hcut
    obtain ⟨c, left, rfl⟩ := List.exists_cons_of_ne_nil hne
    exact h (by simp)

theorem Operator.mem_scanOrder (op : Operator) : op ∈ scanOrder := by cases op <;> decide

theorem Operator.mem_scanOrder_iff {front back : List Operator} {op : Operator}
    (h : scanOrder = front ++ op :: back) (o : Operator) : o ∈ front ↔ o.tier < op.tier := by
  have hsorted : scanOrder.Pairwise fun o o' => o.tier < o'.tier := by decide
  rw [h, List.pairwise_append, List.pairwise_cons] at hsorted
  obtain ⟨-, ⟨hback, -⟩, hfront⟩ := hsorted
  refine ⟨fun ho => hfront o ho op (by simp), fun hlt => ?_⟩
  have hmem := o.mem_scanOrder
  rw [h, List.mem_append, List.mem_cons] at hmem
  rcases hmem with hmem | rfl | hmem
  · exact hmem
  · omega
  · have := hback o hmem
    omega

/-- A text is cut at the last occurrence of an operator that nothing looser occurs beside. -/
theorem cut?_eq_some_iff {t left right : Text} {op : Operator} :
    cut? t = some (op, left, right) ↔
      left ≠ [] ∧ t = left ++ op.symbol :: right ∧ op.symbol ∉ right ∧
        ∀ o : Operator, o.tier < op.tier → o.symbol ∉ t.tail := by
  rw [cut?, List.findSome?_eq_some_iff]
  constructor
  · rintro ⟨front, a, back, hscan, hcut, hfront⟩
    obtain ⟨rfl, hne, heq, hright⟩ := cutAt?_eq_some_iff.1 hcut
    refine ⟨hne, heq, hright, fun o ho => ?_⟩
    exact cutAt?_eq_none_iff.1 (hfront o ((Operator.mem_scanOrder_iff hscan o).2 ho))
  · rintro ⟨hne, heq, hright, hlooser⟩
    obtain ⟨front, back, hscan⟩ := List.append_of_mem op.mem_scanOrder
    refine ⟨front, op, back, hscan, cutAt?_eq_some_iff.2 ⟨rfl, hne, heq, hright⟩, fun o ho => ?_⟩
    exact cutAt?_eq_none_iff.2 (hlooser o ((Operator.mem_scanOrder_iff hscan o).1 ho))

theorem Split.eval_of_ofText?_trim {t : Text} {l : Literal}
    (h : Literal.ofText? (Text.trim t) = some l) :
    (ofText t).eval = if l.value.isFinite then .ok l.value else .error .overflow := by
  have hne : Text.trim t ≠ [] := by
    intro hnil
    rw [hnil] at h
    cases h
  have hread : literal? (Text.trim t) =
      if l.value.isFinite then .ok (some l.value) else .error .overflow := by
    rw [literal?, h]
  rw [ofText, if_neg hne, hread]
  cases l.value.isFinite <;> rfl

namespace Row

/-! ## Signs and operators -/

namespace Operand

variable {x : Operand}

theorem ofText?_text (h : x.signs.length ≤ 1) : Literal.ofText? x.text = some x.literal := by
  obtain ⟨signs, body, hbody⟩ := x
  match signs, h with
  | [], _ => exact Literal.ofText?_of_isUnsigned hbody
  | [.plus], _ => exact Literal.ofText?_plus hbody
  | [.minus], _ => exact Literal.ofText?_minus hbody

theorem exists_of_ofText? {t : Text} {l : Literal} (h : Literal.ofText? t = some l) :
    ∃ x : Operand, x.signs.length ≤ 1 ∧ x.text = t := by
  obtain ⟨body, hbody, -, ⟨rfl, -⟩ | ⟨rfl, -⟩ | ⟨rfl, -⟩⟩ := Literal.exists_of_ofText? h
  · exact ⟨⟨[], t, hbody⟩, by simp, rfl⟩
  · exact ⟨⟨[.plus], body, hbody⟩, by simp, rfl⟩
  · exact ⟨⟨[.minus], body, hbody⟩, by simp, rfl⟩

/-- An operator behind the first character of an operand is a sign too many. -/
theorem symbol_not_mem_tail_text (h : x.signs.length ≤ 1) (op : Operator) :
    op.symbol ∉ x.text.tail := by
  have hbody := x.symbol_not_mem_body op
  obtain ⟨signs, body, _⟩ := x
  match signs, h with
  | [], _ => exact fun hmem => hbody (List.mem_of_mem_tail hmem)
  | [_], _ => exact hbody

end Operand

/-- A sign may stand where it is written like an operator that binds tighter than the one in front. -/
theorem Joint.admits_iff {j : Joint} {x : Operand} :
    j.Admits x ↔ x.signs.length ≤ 1 ∧ ∀ s ∈ x.signs, j.op.tier < s.operator.tier := by
  obtain ⟨_, op, _, _, _⟩ := j
  obtain ⟨signs, _, _⟩ := x
  match signs with
  | [] => cases op <;> simp [Admits]
  | [s] => cases op <;> cases s <;> simp [Admits, Sign.operator, Operator.tier]
  | _ :: _ :: _ => cases op <;> simp [Admits]

theorem wellSigned_join_iff {left right : Row} {j : Joint} :
    (left.join j right).WellSigned ↔ left.WellSigned ∧ j.Admits right.first ∧ right.WellSigned := by
  simp only [WellSigned, join, List.mem_append, List.mem_cons]
  constructor
  · rintro ⟨hfirst, hlinks⟩
    have hadmits := hlinks (j, right.first) (.inr (.inl rfl))
    exact ⟨⟨hfirst, fun k hk => hlinks k (.inl hk)⟩, hadmits, (Joint.admits_iff.1 hadmits).1,
      fun k hk => hlinks k (.inr (.inr hk))⟩
  · rintro ⟨⟨hfirst, hleft⟩, hadmits, -, hright⟩
    refine ⟨hfirst, ?_⟩
    rintro k (hk | rfl | hk)
    · exact hleft k hk
    · exact hadmits
    · exact hright k hk

/-- What is written like an operator behind an operand is an operator, or a sign behind a looser
one. -/
theorem exists_tier_le_of_mem_linksText {links : List (Joint × Operand)}
    (h : ∀ k ∈ links, k.1.Admits k.2) {op : Operator} (hmem : op.symbol ∈ linksText links) :
    ∃ k ∈ links, k.1.op.tier ≤ op.tier := by
  obtain ⟨⟨j, x⟩, hk, hmem⟩ := List.mem_flatMap.1 hmem
  refine ⟨(j, x), hk, ?_⟩
  rcases List.mem_append.1 hmem with hmem | hmem
  · exact Nat.le_of_eq (congrArg Operator.tier (j.eq_of_symbol_mem hmem))
  · obtain ⟨s, hs, rfl⟩ := Operand.exists_sign_of_symbol_mem hmem
    exact Nat.le_of_lt ((Joint.admits_iff.1 (h _ hk)).2 s hs)

namespace WellSigned

variable {c : Row}

theorem exists_tier_le_of_mem_tail (h : c.WellSigned) {op : Operator} (hmem : op.symbol ∈ c.text.tail) :
    ∃ o ∈ c.ops, o.tier ≤ op.tier := by
  rw [text, List.tail_append_of_ne_nil c.first.text_ne_nil, List.mem_append] at hmem
  have hlinks := hmem.resolve_left (Operand.symbol_not_mem_tail_text h.1 op)
  obtain ⟨k, hk, hle⟩ := exists_tier_le_of_mem_linksText h.2 hlinks
  exact ⟨k.1.op, List.mem_map_of_mem hk, hle⟩

theorem exists_tier_le_of_mem (h : c.WellSigned) {j : Joint} (hj : j.Admits c.first) {op : Operator}
    (hmem : op.symbol ∈ c.text) : j.op.tier < op.tier ∨ ∃ o ∈ c.ops, o.tier ≤ op.tier := by
  rcases List.mem_append.1 hmem with hmem | hmem
  · obtain ⟨s, hs, rfl⟩ := Operand.exists_sign_of_symbol_mem hmem
    exact .inl ((Joint.admits_iff.1 hj).2 s hs)
  · obtain ⟨k, hk, hle⟩ := exists_tier_le_of_mem_linksText h.2 hmem
    exact .inr ⟨k.1.op, List.mem_map_of_mem hk, hle⟩

end WellSigned

/-! ## From the tree to the text -/

theorem cut?_text_join {left right : Row} {j : Joint} (h : (left.join j right).WellSigned)
    (hcut : IsCut left j right) :
    cut? (left.join j right).text = some (j.op, left.text ++ j.before, j.behind ++ right.text) := by
  obtain ⟨-, hadmits, hright⟩ := wellSigned_join_iff.1 h
  refine cut?_eq_some_iff.2 ⟨by simp [text_ne_nil], by simp [Joint.text], ?_, fun o ho hmem => ?_⟩
  · rw [List.mem_append, not_or]
    refine ⟨Text.not_mem_of_isBlanks j.isBlanks_behind (not_isBlank_symbol _), fun hmem => ?_⟩
    rcases hright.exists_tier_le_of_mem hadmits hmem with hlt | ⟨o, ho, hle⟩
    · omega
    · have := hcut.lt_right o ho
      omega
  · obtain ⟨o', ho', hle⟩ := h.exists_tier_le_of_mem_tail hmem
    rw [ops_join, List.mem_append, List.mem_cons] at ho'
    rcases ho' with ho' | rfl | ho'
    · have := hcut.left_le o' ho'
      omega
    · omega
    · have := hcut.lt_right o' ho'
      omega

theorem Tree.eval_text {e : Tree} (he : e.IsTiered) (h : e.row.WellSigned) {l r : Text}
    (hl : IsBlanks l) (hr : IsBlanks r) : (Split.ofText (l ++ e.row.text ++ r)).eval = e.eval := by
  induction e generalizing l r with
  | operand x =>
    have htrim := Text.trim_blanks_append hl (isTrimmed_text (operand x).row) (text_ne_nil _) hr
    refine Split.eval_of_ofText?_trim ?_
    rw [htrim, row, text, linksText_nil, List.append_nil]
    exact Operand.ofText?_text h.1
  | node left j right ihleft ihright =>
    obtain ⟨hleft, hright, hcut⟩ := he
    obtain ⟨hsleft, -, hsright⟩ := wellSigned_join_iff.1 h
    have htrim := Text.trim_blanks_append hl (isTrimmed_text (node left j right).row) (text_ne_nil _) hr
    have hl' := ihleft hleft hsleft Text.isBlanks_nil j.isBlanks_before
    have hr' := ihright hright hsright j.isBlanks_behind Text.isBlanks_nil
    rw [List.nil_append] at hl'
    rw [List.append_nil] at hr'
    have hcut' := cut?_text_join h hcut
    have hliteral : literal? (left.row.join j right.row).text = .ok none := by
      obtain ⟨hne, heq, -⟩ := cut?_eq_some_iff.1 hcut'
      rw [heq, literal?_eq_ok_none_iff]
      exact Literal.ofText?_append_cons hne (isMark_symbol j.op).1 _
    rw [row] at htrim ⊢
    rw [Split.eval_of_cut?_trim (by rwa [htrim]) (by rwa [htrim]), hl', hr']
    rfl

/-! ## From the text to the row -/

theorem exists_of_eval {t : Text} {x : Binary64} (h : (Split.ofText t).eval = .ok x) :
    ∃ c : Row, c.WellSigned ∧ c.text = Text.trim t := by
  fun_induction Split.ofText t generalizing x with
  | case1 => simp [Split.eval] at h
  | case2 => simp [Split.eval] at h
  | case3 t _ value hvalue =>
    obtain ⟨l, hl, -⟩ := literal?_eq_ok_some_iff.1 hvalue
    obtain ⟨x, hx, htext⟩ := Operand.exists_of_ofText? hl
    exact ⟨⟨x, []⟩, ⟨hx, nofun⟩, by rw [text, linksText_nil, List.append_nil, htext]⟩
  | case4 => simp [Split.eval] at h
  | case5 t _ _ op left right hcut ihleft ihright =>
    obtain ⟨y, hleft, h⟩ := bind_eq_ok_iff.1 h
    obtain ⟨z, hright, -⟩ := bind_eq_ok_iff.1 h
    obtain ⟨c, hc, hctext⟩ := ihleft hleft
    obtain ⟨d, hd, hdtext⟩ := ihright hright
    obtain ⟨hne, heq, hlast, hlooser⟩ := cut?_eq_some_iff.1 hcut
    have htrim := Text.isTrimmed_trim t
    rw [heq] at htrim
    obtain ⟨before, hbefore, hl⟩ := htrim.exists_eq_trim_append
    obtain ⟨behind, hbehind, hr⟩ :=
      (show Text.IsTrimmed ((left ++ [op.symbol]) ++ right) by simpa using htrim).exists_eq_append_trim
    refine ⟨c.join ⟨before, op, behind, hbefore, hbehind⟩ d, ?_, ?_⟩
    · refine wellSigned_join_iff.2 ⟨hc, Joint.admits_iff.2 ⟨hd.1, fun s hs => ?_⟩, hd⟩
      have hsymbol : s.operator.symbol ∈ right := by
        rw [hr, ← hdtext]
        have : s.symbol ∈ d.first.text := List.mem_append_left _ (List.mem_map_of_mem hs)
        exact List.mem_append_right _ (List.mem_append_left _ this)
      rcases Nat.lt_trichotomy op.tier s.operator.tier with hlt | hsame | hlt
      · exact hlt
      · rw [← Operator.tier_injective hsame] at hsymbol
        exact absurd hsymbol hlast
      · refine absurd ?_ (hlooser _ hlt)
        rw [heq, List.tail_append_of_ne_nil hne]
        simp [hsymbol]
    · rw [text_join, hctext, hdtext, Joint.text, heq]
      conv => rhs; rw [hl, hr]
      simp

end Row

/-- **Flat texts are evaluated in four tiers.** A row is the row of one tiered tree. If its signs stand
where they may, its text comes to what the tree comes to, be it a value or an error, and otherwise the
text has no value; blanks around the text change nothing. -/
theorem eval_row (c : Row) {l r : Text} (hl : IsBlanks l) (hr : IsBlanks r) :
    (∃! e : Row.Tree, e.IsTiered ∧ e.row = c) ∧
      (c.WellSigned → ∀ e : Row.Tree, e.IsTiered → e.row = c →
        (Split.ofText (l ++ c.text ++ r)).eval = e.eval) ∧
      (¬ c.WellSigned → ∀ x, (Split.ofText (l ++ c.text ++ r)).eval ≠ .ok x) := by
  refine ⟨c.existsUnique_tree, ?_, fun hc x hx => ?_⟩
  · rintro h e he rfl
    exact Row.Tree.eval_text he h hl hr
  · obtain ⟨c', hc', htext⟩ := Row.exists_of_eval hx
    rw [Text.trim_blanks_append hl c.isTrimmed_text c.text_ne_nil hr] at htext
    exact hc (Row.text_injective htext ▸ hc')

/-- The tree of `8/ 2+-3`, in which the sum stands under the division. -/
def Row.Tree.overSum : Row.Tree :=
  .node (.operand ⟨[], ['8'], by decide⟩) ⟨[], .divide, [' '], nofun, by decide⟩
    (.node (.operand ⟨[], ['2'], by decide⟩) ⟨[], .add, [], nofun, nofun⟩
      (.operand ⟨[.minus], ['3'], by decide⟩))

/-- The row of `2--1`, in which a sign stands behind an operator that subtracts. -/
def Row.signedTwice : Row :=
  ⟨⟨[], ['2'], by decide⟩, [(⟨[], .subtract, [], nofun, nofun⟩, ⟨[.minus], ['1'], by decide⟩)]⟩

/-- The theorem at a row whose sign may stand where it does, and at one whose sign may not. -/
theorem eval_row_signs :
    (Row.Tree.overSum.row.text = "8/ 2+-3".toList ∧
      (Split.ofText ([' '] ++ Row.Tree.overSum.row.text ++ [])).eval =
        .ok (Decimal.toBinary64 true ⟨8, 0⟩)) ∧
    Row.signedTwice.text = "2--1".toList ∧
      ∀ x, (Split.ofText ([] ++ Row.signedTwice.text ++ [' '])).eval ≠ .ok x := by
  refine ⟨⟨by decide, ?_⟩, by decide, ?_⟩
  · have htiered : Row.Tree.overSum.IsTiered :=
      ⟨trivial, ⟨trivial, trivial, by decide, by decide⟩, by decide, by decide⟩
    rw [(eval_row Row.Tree.overSum.row (by decide) Text.isBlanks_nil).2.1 (by decide) _ htiered rfl]
    decide +kernel
  · exact (eval_row Row.signedTwice Text.isBlanks_nil (by decide)).2.2 (by decide)

end DeskCalculator
