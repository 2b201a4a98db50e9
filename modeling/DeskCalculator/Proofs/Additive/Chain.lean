import DeskCalculator.Proofs.Binary64.Whole
import DeskCalculator.Proofs.Reduction.Flat

/-!
# Chains of numbers

A chain is a flat text of numbers with additive operators between them, blanks around the operators,
and perhaps a minus sign in front. It is not split from the left: the cut is at the last plus sign,
and only without one at the last minus sign (`Chain.parts`). The parts are chains again, and
what was taken away in the right part is taken away from the sum just as well, so that with small
numbers the value of the chain comes out without any rounding (`Chain.eval`).
-/

namespace DeskCalculator

open Literal (isNumeral)

/-- An unsigned literal for a whole number. -/
structure IsWholeLiteral (d : Text) (z : Int) : Prop where
  isUnsigned : Literal.isUnsigned d = true
  reads : ∃ x, literal? d = .ok (some x) ∧ x.Denotes z

/-- The text is a chain for the whole number `z`, and the magnitudes of its numbers add up to `n`. -/
inductive Chain : Text → Int → Nat → Prop
  | number {d : Text} {z : Int} : IsWholeLiteral d z → Chain d z z.natAbs
  | negative {d : Text} {z : Int} : IsWholeLiteral d z → Chain ('-' :: d) (-z) z.natAbs
  | append {t l r d : Text} {z y : Int} {n : Nat} {op : Operator} :
      Chain t z n → Text.IsBlanks l → op.IsAdditive → Text.IsBlanks r → IsWholeLiteral d y →
        Chain (t ++ l ++ op.symbol :: (r ++ d)) (op.onWhole z y) (n + y.natAbs)

namespace IsWholeLiteral

variable {d : Text} {z : Int}

theorem symbol_not_mem (h : IsWholeLiteral d z) (op : Operator) : op.symbol ∉ d := by
  exact Literal.not_mem_of_isUnsigned h.isUnsigned (isMark_symbol op).1

theorem ne_nil (h : IsWholeLiteral d z) : d ≠ [] := Literal.ne_nil_of_isUnsigned h.isUnsigned

theorem isTrimmed (h : IsWholeLiteral d z) : Text.IsTrimmed d :=
  Text.isTrimmed_of_isGraphic (isGraphic_of_isUnsigned h.isUnsigned)

end IsWholeLiteral

namespace Chain

variable {t : Text} {z : Int} {n : Nat}

theorem ne_nil (h : Chain t z n) : t ≠ [] := by
  cases h with
  | number hd => exact hd.ne_nil
  | negative => simp
  | append => simp

theorem isTrimmed (h : Chain t z n) : Text.IsTrimmed t := by
  induction h with
  | number hd => exact hd.isTrimmed
  | @negative d z hd =>
    exact Text.isTrimmed_of_isGraphic ((isGraphic_of_isUnsigned hd.isUnsigned).cons (by decide))
  | @append t l r d _ _ _ op ht _ _ _ hd ih =>
    have hlast : (l ++ op.symbol :: (r ++ d)).getLast? = d.getLast? := by
      rw [List.getLast?_append, List.getLast?_cons, List.getLast?_append,
        List.getLast?_eq_some_getLast hd.ne_nil]
      rfl
    have h := Text.isTrimmed_append (l := []) (r := l ++ op.symbol :: (r ++ d)) nofun ih ht.ne_nil
      (by rw [hlast]; exact hd.isTrimmed.last)
    rwa [List.nil_append, ← List.append_assoc] at h

theorem of_mem (h : Chain t z n) {c : Char} (hc : c ∈ t) :
    isNumeral c = true ∨ Text.isBlank c = true ∨ c = '+' ∨ c = '-' := by
  induction h with
  | number hd => exact .inl (Literal.isNumeral_of_isUnsigned hd.isUnsigned hc)
  | negative hd =>
    rcases List.mem_cons.1 hc with rfl | hc
    · simp
    · exact .inl (Literal.isNumeral_of_isUnsigned hd.isUnsigned hc)
  | append _ hl hop hr hd ih =>
    simp only [List.mem_append, List.mem_cons] at hc
    rcases hc with (hc | hc) | rfl | hc | hc
    · exact ih hc
    · exact .inr (.inl (hl c hc))
    · rcases hop with rfl | rfl <;> simp [Operator.symbol]
    · exact .inr (.inl (hr c hc))
    · exact .inl (Literal.isNumeral_of_isUnsigned hd.isUnsigned hc)

theorem not_mem (h : Chain t z n) {c : Char} (hnumeral : isNumeral c = false)
    (hblank : Text.isBlank c = false) (hplus : c ≠ '+') (hminus : c ≠ '-') : c ∉ t := by
  intro hc
  rcases h.of_mem hc with h | h | h | h
  · rw [h] at hnumeral
    cases hnumeral
  · rw [h] at hblank
    cases hblank
  · exact hplus h
  · exact hminus h

theorem natAbs_le (h : Chain t z n) : z.natAbs ≤ n := by
  induction h with
  | number => exact Nat.le_refl _
  | negative => exact Nat.le_of_eq (Int.natAbs_neg _)
  | @append _ _ _ _ z y n op _ _ _ _ _ ih =>
    have hop := op.natAbs_onWhole_le z y
    omega

/-! ## The cut -/

/-- A chain is a literal without a plus sign, or it falls apart at its last plus sign, or at its last
minus sign if there is no plus sign. -/
inductive Parts : Text → Int → Nat → Prop
  | literal {t : Text} {z : Int} {n : Nat} {x : Binary64} : '+' ∉ t → literal? t = .ok (some x) →
      x.Denotes z → Parts t z n
  | operation {left l r right : Text} {a b : Int} {i j : Nat} {op : Operator} : Text.IsBlanks l →
      Text.IsBlanks r → Chain left a i → Chain right b j → op.symbol ∉ r ++ right →
        (op = .add ∨ op = .subtract ∧ '+' ∉ left ++ l ++ op.symbol :: (r ++ right)) →
          Parts (left ++ l ++ op.symbol :: (r ++ right)) (op.onWhole a b) (i + j)

theorem parts (h : Chain t z n) : Parts t z n := by
  induction h with
  | number hd =>
    obtain ⟨x, hread, hx⟩ := hd.reads
    exact .literal (hd.symbol_not_mem .add) hread hx
  | negative hd =>
    obtain ⟨x, hread, hx⟩ := hd.reads
    refine .literal ?_ (literal?_minus hd.isUnsigned hread) hx.neg
    rw [List.mem_cons, not_or]
    exact ⟨by decide, hd.symbol_not_mem .add⟩
  | @append t l r d z y n op ht hl hop hr hd ih =>
    have hlast : op.symbol ∉ r ++ d := by
      rw [List.mem_append, not_or]
      exact ⟨Text.not_mem_of_isBlanks hr (not_isBlank_symbol op), hd.symbol_not_mem op⟩
    have hplus : '+' ∉ l ∧ '+' ∉ r ∧ '+' ∉ d := ⟨Text.not_mem_of_isBlanks hl (by decide),
      Text.not_mem_of_isBlanks hr (by decide), hd.symbol_not_mem .add⟩
    rcases hop with rfl | rfl
    · exact .operation hl hr ht (.number hd) hlast (.inl rfl)
    · by_cases hmem : '+' ∈ t
      · -- the cut is the one of the front, and the last number goes to the right part
        cases ih with
        | literal hnot => exact absurd hmem hnot
        | @operation left l' r' right a b i j op' hl' hr' hleft hright hnot hop' =>
          rcases hop' with rfl | ⟨-, hnone⟩
          · have htext : left ++ l' ++ '+' :: (r' ++ right) ++ l ++ '-' :: (r ++ d) =
                left ++ l' ++ '+' :: (r' ++ (right ++ l ++ '-' :: (r ++ d))) := by simp
            have hvalue : Operator.subtract.onWhole (Operator.add.onWhole a b) y =
                Operator.add.onWhole a (Operator.subtract.onWhole b y) := by
              simp only [Operator.onWhole, reduceCtorEq, if_false, if_true]
              omega
            have hnot' : '+' ∉ r' ++ (right ++ l ++ '-' :: (r ++ d)) := by
              have hright' : '+' ∉ r' ++ right := hnot
              simp only [List.mem_append, List.mem_cons, not_or] at hright' ⊢
              exact ⟨hright'.1, ⟨hright'.2, hplus.1⟩, by decide, hplus.2.1, hplus.2.2⟩
            have hparts : Parts (left ++ l' ++ Operator.add.symbol ::
                (r' ++ (right ++ l ++ Operator.subtract.symbol :: (r ++ d))))
                (Operator.add.onWhole a (Operator.subtract.onWhole b y)) (i + (j + y.natAbs)) :=
              .operation hl' hr' hleft (hright.append hl (.inr rfl) hr hd) hnot' (.inl rfl)
            show Parts (left ++ l' ++ '+' :: (r' ++ right) ++ l ++ '-' :: (r ++ d)) _ _
            rw [htext, hvalue, Nat.add_assoc]
            exact hparts
          · exact absurd hmem hnone
      · refine .operation hl hr ht (.number hd) hlast (.inr ⟨rfl, ?_⟩)
        simp only [List.mem_append, List.mem_cons, not_or]
        exact ⟨⟨hmem, hplus.1⟩, by decide, hplus.2.1, hplus.2.2⟩

/-- How a chain is split: it is a literal, or it is cut into two chains. -/
inductive Cut (t : Text) (z : Int) (n : Nat) : Prop
  | literal {x : Binary64} : literal? t = .ok (some x) → x.Denotes z → Cut t z n
  | operation {left right : Text} {a b : Int} {i j : Nat} {op : Operator} : literal? t = .ok none →
      cut? t = some (op, left, right) → op.IsAdditive → Chain (Text.trim left) a i →
        Chain (Text.trim right) b j → z = op.onWhole a b → n = i + j → Cut t z n

theorem cut (h : Chain t z n) : Cut t z n := by
  cases h.parts with
  | literal _ hread hx => exact .literal hread hx
  | @operation left l r right a b i j op hl hr hleft hright hsymbol hop =>
    have hne : left ++ l ≠ [] := by simp [hleft.ne_nil]
    have hnone := literal?_eq_ok_none_iff.2
      (Literal.ofText?_append_cons hne (isMark_symbol op).1 (r ++ right))
    have hcut := cut?_append_symbol hne hsymbol fun o ho hminus => by
      cases o with
      | add => exact (hop.resolve_left (Ne.symm ho)).2
      | subtract => exact absurd rfl hminus
      | multiply => exact h.not_mem (by decide) (by decide) (by decide) (by decide)
      | divide => exact h.not_mem (by decide) (by decide) (by decide) (by decide)
    have hadditive : op.IsAdditive := hop.imp_right And.left
    have hleftTrim := Text.trim_blanks_append Text.isBlanks_nil hleft.isTrimmed hleft.ne_nil hl
    have hrightTrim := Text.trim_blanks_append hr hright.isTrimmed hright.ne_nil Text.isBlanks_nil
    rw [List.nil_append] at hleftTrim
    rw [List.append_nil] at hrightTrim
    exact .operation hnone hcut hadditive (by rwa [hleftTrim]) (by rwa [hrightTrim]) rfl rfl

/-- **A chain of small numbers is evaluated to its value**, whatever the order of the cuts. -/
theorem eval {t : Text} (h : Chain (Text.trim t) z n) (hn : n < Nat.pow 2 53) :
    ∃ x, (Split.ofText t).eval = .ok x ∧ x.Denotes z := by
  induction hlength : t.length using Nat.strongRecOn generalizing t z n with
  | ind length ih =>
    cases h.cut with
    | literal hread hx => exact ⟨_, Split.eval_of_literal?_trim hread, hx⟩
    | @operation left right a b i j op hnone hcut hop hleft hright hz hsum =>
      have hparts := congrArg List.length (eq_append_of_cut? hcut)
      have htrim := Text.length_trim_le t
      simp only [List.length_append, List.length_cons] at hparts
      obtain ⟨x, hx, ha⟩ := ih _ (by omega) hleft (by omega) rfl
      obtain ⟨y, hy, hb⟩ := ih _ (by omega) hright (by omega) rfl
      have hbound := Nat.add_le_add hleft.natAbs_le hright.natAbs_le
      obtain ⟨w, hw, hvalue⟩ := Operator.apply_of_denotes hop ha hb (by omega)
      rw [hz, Split.eval_of_cut?_trim hnone hcut, hx, hy]
      exact ⟨w, hw, hvalue⟩

end Chain

end DeskCalculator
