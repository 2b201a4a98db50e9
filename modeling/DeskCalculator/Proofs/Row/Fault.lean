import DeskCalculator.Proofs.Evaluator.Arithmetic
import DeskCalculator.Proofs.Evaluator.Finiteness
import DeskCalculator.Proofs.Row.Lead

/-!
# Faults of rows

A well-signed row may overflow or divide by zero, but there is nothing wrong with it
(`Row.WellSigned.eval_ne_invalid`). Where a minus sign behind an operator that adds becomes a plus sign,
an empty operand comes to stand between the two (`Split.eval_plus_plus`): the cuts of the text stay where
they are, and the part on the left of the new sign ends with the operator.
-/

namespace DeskCalculator

open Literal (isNumeral)
open Text (IsBlanks)

theorem Operator.eq_notANumber_of_apply {op : Operator} {x y : Binary64} {fault : Fault}
    (h : op.apply x y = .error (.invalid fault)) : fault = .notANumber :=
  (failsWith_apply op x y _ h).eq_notANumber

namespace Row

theorem Tree.eq_notANumber_of_eval {e : Tree} {fault : Fault}
    (h : e.eval = .error (.invalid fault)) : fault = .notANumber := by
  induction e with
  | operand x =>
    rw [eval] at h
    split at h <;> cases h
  | node left j right ihleft ihright =>
    rw [eval] at h
    cases hleft : left.eval with
    | error e =>
      rw [hleft] at h
      exact ihleft (hleft.trans h)
    | ok x =>
      rw [hleft] at h
      cases hright : right.eval with
      | error e =>
        rw [hright] at h
        exact ihright (hright.trans h)
      | ok y =>
        rw [hright] at h
        exact Operator.eq_notANumber_of_apply h

/-- **There is nothing wrong with a well-signed row.** -/
theorem WellSigned.eval_ne_invalid {c : Row} (hc : c.WellSigned) (fault : Fault) :
    (Split.ofText c.text).eval ≠ .error (.invalid fault) := by
  intro h
  obtain ⟨e, ⟨he, rfl⟩, -⟩ := c.existsUnique_tree
  have heval := Tree.eval_text he hc Text.isBlanks_nil Text.isBlanks_nil
  rw [List.nil_append, List.append_nil] at heval
  obtain rfl := Tree.eq_notANumber_of_eval (heval.symm.trans h)
  exact (yields_split _).valid h

theorem WellSigned.text_ne_plus_minus {c : Row} (hc : c.WellSigned) {bl r : Text} (hbl : IsBlanks bl) :
    c.text ≠ '+' :: (bl ++ '-' :: r) := by
  intro h
  have hhead : ∀ e ∈ (bl ++ '-' :: r).head?, isNumeral e = false := by
    intro e he
    cases bl with
    | nil =>
      obtain rfl := Option.some.inj he
      decide
    | cons b bl =>
      obtain rfl := Option.some.inj he
      exact (isMark_of_isBlank (hbl b (by simp))).1
  have hbody := c.first.isUnsigned
  obtain ⟨d, body, hcons⟩ := List.exists_cons_of_ne_nil (Literal.ne_nil_of_isUnsigned hbody)
  have hd : isNumeral d = true := Literal.isNumeral_of_isUnsigned hbody (by simp [hcons])
  rw [text, Operand.text, hcons] at h
  rcases Sign.eq_nil_or_singleton hc.1 with hsigns | ⟨s, hsigns⟩
  · rw [hsigns] at h
    obtain rfl := (List.cons.inj h).1
    cases hd
  · rw [hsigns] at h
    have hrest := (List.cons.inj h).2
    rw [hhead d (by rw [← hrest]; rfl)] at hd
    cases hd

end Row

/-! ## Two signs -/

section

variable {front bl back left right : Text} {op : Operator}

theorem trim_plus_sign {c : Char} (hc : Text.isBlank c = false) :
    Text.trim (front ++ '+' :: (bl ++ c :: back)) =
      Text.trimStart front ++ '+' :: (bl ++ c :: Text.trimEnd back) := by
  rw [Text.trim_append_cons _ (by decide), Text.trimEnd_append_cons _ hc]

theorem cut?_plus_minus (hfront : front ≠ []) (hbl : IsBlanks bl)
    (h : cut? (front ++ '+' :: (bl ++ '-' :: back)) = some (op, left, right)) :
    op ≠ .subtract ∧
      ((∃ mid, front = left ++ op.symbol :: mid ∧ right = mid ++ '+' :: (bl ++ '-' :: back)) ∨
        (op = .add ∧ left = front ∧ right = bl ++ '-' :: back) ∨
        ∃ mid, left = front ++ '+' :: (bl ++ '-' :: mid) ∧ back = mid ++ op.symbol :: right) := by
  obtain ⟨hne, heq, hlast, hlooser⟩ := cut?_eq_some_iff.1 h
  have hop : op ≠ .subtract := by
    rintro rfl
    refine hlooser .add (by decide) ?_
    rw [List.tail_append_of_ne_nil hfront]
    simp [Operator.symbol]
  refine ⟨hop, ?_⟩
  rcases append_cons_eq_append_cons heq with ⟨hleft, hsymbol, hright⟩ | hbefore | ⟨mid, hleft, hright⟩
  · have hadd : op = .add := symbol_injective hsymbol.symm
    exact .inr (.inl ⟨hadd, hleft.symm, hright.symm⟩)
  · obtain ⟨mid, hleft, hright⟩ := hbefore
    rcases append_cons_eq_append_cons hright with ⟨-, hsymbol, -⟩ | ⟨mid', rfl, hback⟩ | ⟨mid', rfl, -⟩
    · have hsubtract : op = .subtract := symbol_injective hsymbol.symm
      exact absurd hsubtract hop
    · exact .inr (.inr ⟨mid', hleft, hback⟩)
    · exact absurd (by simp) (Text.not_mem_of_isBlanks hbl (not_isBlank_symbol op))
  · exact .inl ⟨mid, hleft, hright⟩

/-- The other operators are written in the same places with a plus sign instead of the minus sign. -/
theorem symbol_mem_tail_plus_minus {o : Operator} (ho : o ≠ .add) (hfront : front ≠ [])
    (h : o.symbol ∈ (front ++ '+' :: (bl ++ '+' :: back)).tail) :
    o.symbol ∈ (front ++ '+' :: (bl ++ '-' :: back)).tail := by
  have hplus : o.symbol ≠ '+' := fun hsymbol => ho (symbol_injective hsymbol)
  rw [List.tail_append_of_ne_nil hfront] at h ⊢
  simp only [List.mem_append, List.mem_cons, hplus, false_or] at h ⊢
  rcases h with h | h | h
  · exact .inl h
  · exact .inr (.inl h)
  · exact .inr (.inr (.inr h))

theorem cut?_plus_plus (hfront : front ≠ []) (hbl : IsBlanks bl)
    (h : cut? (front ++ '+' :: (bl ++ '-' :: back)) = some (op, left, right)) :
    (∃ mid, right = mid ++ '+' :: (bl ++ '-' :: back) ∧
      cut? (front ++ '+' :: (bl ++ '+' :: back)) =
        some (op, left, mid ++ '+' :: (bl ++ '+' :: back))) ∨
    (left = front ∧ (∀ o : Operator, o.tier < Operator.add.tier → o.symbol ∉ front.tail) ∧
      cut? (front ++ '+' :: (bl ++ '+' :: back)) = some (.add, front ++ '+' :: bl, back)) ∨
    ∃ mid, left = front ++ '+' :: (bl ++ '-' :: mid) ∧
      cut? (front ++ '+' :: (bl ++ '+' :: back)) =
        some (op, front ++ '+' :: (bl ++ '+' :: mid), right) := by
  obtain ⟨hop, hcases⟩ := cut?_plus_minus hfront hbl h
  obtain ⟨hne, -, hlast, hlooser⟩ := cut?_eq_some_iff.1 h
  have hlooser' (o : Operator) (ho : o.tier < op.tier) :
      o.symbol ∉ (front ++ '+' :: (bl ++ '+' :: back)).tail := by
    have hadd : o ≠ .add := by
      rintro rfl
      revert ho hop
      cases op <;> decide
    exact fun hmem => hlooser o ho (symbol_mem_tail_plus_minus hadd hfront hmem)
  rcases hcases with ⟨mid, hfrontEq, rfl⟩ | ⟨rfl, rfl, rfl⟩ | ⟨mid, rfl, rfl⟩
  · refine .inl ⟨mid, rfl, cut?_eq_some_iff.2 ⟨hne, by simp [hfrontEq], ?_, hlooser'⟩⟩
    simp only [List.mem_append, List.mem_cons, not_or] at hlast ⊢
    exact ⟨hlast.1, hlast.2.1, hlast.2.2.1, hlast.2.1, hlast.2.2.2.2⟩
  · refine .inr (.inl ⟨rfl, fun o ho hmem => hlooser o ho ?_,
      cut?_eq_some_iff.2 ⟨by simp, ?_, ?_, hlooser'⟩⟩)
    · rw [List.tail_append_of_ne_nil hfront]
      exact List.mem_append_left _ hmem
    · simp [Operator.symbol]
    · simp only [List.mem_append, List.mem_cons, not_or] at hlast
      exact hlast.2.2
  · refine .inr (.inr ⟨mid, rfl, cut?_eq_some_iff.2 ⟨by simp, by simp, hlast, hlooser'⟩⟩)

theorem Split.eval_nil : (ofText []).eval = .error (.invalid .emptySubexpression) := by
  rw [ofText, if_pos (show Text.trim [] = [] from rfl)]
  rfl

/-- A text that ends with an operator that adds has an empty operand. -/
theorem Split.eval_plus_blanks {t : Text} {y : Binary64} (hbl : IsBlanks bl)
    (ht : Text.trimStart t = t)
    (hlooser : ∀ o : Operator, o.tier < Operator.add.tier → o.symbol ∉ t.tail)
    (h : (ofText t).eval = .ok y) :
    (ofText (t ++ '+' :: bl)).eval = .error (.invalid .emptySubexpression) := by
  have hne : t ≠ [] := by
    rintro rfl
    rw [eval_nil] at h
    cases h
  have hend : Text.trimEnd bl = [] := Text.trimEnd_append_of_isBlanks hbl []
  have htrim : Text.trim (t ++ '+' :: bl) = t ++ ['+'] := by
    rw [Text.trim_append_cons t (by decide), ht, hend]
  have hcut : cut? (t ++ ['+']) = some (.add, t, []) := by
    refine cut?_eq_some_iff.2 ⟨hne, rfl, by simp, fun o ho => ?_⟩
    have hplus : o.symbol ≠ '+' := by
      revert ho
      cases o <;> decide
    rw [List.tail_append_of_ne_nil hne]
    simp [hlooser o ho, hplus]
  have hliteral := literal?_eq_ok_none_iff.2 (Literal.ofText?_append_cons hne (c := '+') (by decide) [])
  rw [eval_of_cut?_trim (by rwa [htrim]) (by rwa [htrim]), h, eval_nil]
  rfl

/-- **A plus sign behind an operator that adds leaves an empty operand between the two**, if the text
has a value with a minus sign there. -/
theorem Split.eval_plus_plus {x : Binary64} (hbl : IsBlanks bl)
    (h : (ofText (front ++ '+' :: (bl ++ '-' :: back))).eval = .ok x) :
    (ofText (front ++ '+' :: (bl ++ '+' :: back))).eval = .error (.invalid .emptySubexpression) := by
  generalize htext : front ++ '+' :: (bl ++ '-' :: back) = t at h
  obtain ⟨c, hc, hrow⟩ := Row.exists_of_eval h
  fun_induction ofText t generalizing front back x c with
  | case1 => simp [eval] at h
  | case2 => simp [eval] at h
  | case3 t _ value hvalue =>
    subst htext
    rw [trim_plus_sign (by decide)] at hvalue
    have hnone := Literal.ofText?_append_cons (l := Text.trimStart front ++ '+' :: bl) (by simp)
      (c := '-') (by decide) (Text.trimEnd back)
    rw [List.append_assoc, List.cons_append] at hnone
    rw [literal?_eq_ok_none_iff.2 hnone] at hvalue
    cases hvalue
  | case4 => simp [eval] at h
  | case5 t _ _ op left right hcut ihleft ihright =>
    subst htext
    obtain ⟨y, hleft, h⟩ := bind_eq_ok_iff.1 h
    obtain ⟨z, hright, -⟩ := bind_eq_ok_iff.1 h
    rw [trim_plus_sign (by decide)] at hcut hrow
    have hfront : Text.trimStart front ≠ [] := by
      intro hnil
      rw [hnil] at hrow
      exact hc.text_ne_plus_minus hbl hrow
    have htrim : Text.trim (front ++ '+' :: (bl ++ '+' :: back)) =
        Text.trimStart front ++ '+' :: (bl ++ '+' :: Text.trimEnd back) := trim_plus_sign (by decide)
    have hliteral := literal?_eq_ok_none_iff.2
      (Literal.ofText?_append_cons hfront (c := '+') (by decide) (bl ++ '+' :: Text.trimEnd back))
    rcases cut?_plus_plus hfront hbl hcut with
      ⟨mid, rfl, hcut'⟩ | ⟨rfl, hlooser, hcut'⟩ | ⟨mid, rfl, hcut'⟩
    · obtain ⟨d, hd, hdtext⟩ := Row.exists_of_eval hright
      rw [eval_of_cut?_trim (by rwa [htrim]) (by rwa [htrim]), hleft, ihright rfl hright d hd hdtext]
      rfl
    · have hstart : Text.trimStart (Text.trimStart front) = Text.trimStart front :=
        Text.trimStart_of_head? fun e he => Text.isBlank_of_head?_trimStart he
      rw [eval_of_cut?_trim (by rwa [htrim]) (by rwa [htrim]), eval_plus_blanks hbl hstart hlooser hleft]
      rfl
    · obtain ⟨d, hd, hdtext⟩ := Row.exists_of_eval hleft
      rw [eval_of_cut?_trim (by rwa [htrim]) (by rwa [htrim]), ihleft rfl hleft d hd hdtext]
      rfl

end

end DeskCalculator
