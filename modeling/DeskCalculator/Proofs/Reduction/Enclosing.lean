import DeskCalculator.Proofs.Reduction.Context
import DeskCalculator.Proofs.Reduction.Order

/-!
# Reducing a text in parentheses

A text in parentheses is reduced as the text itself, and its value is written and read once more at the
end (`Reduction.eval_enclose`). Each step resolves the same group. What stands before the group is now
behind a parenthesis and blanks, which end no operand, are no sign and no part of a word
(`Group.value_enclose`, `Group.exists_splice_enclose`).

Between two steps a text is trimmed, but not inside the parentheses, so the induction is about the text with
any blanks around it (`Text.enclose`).
-/

namespace DeskCalculator

open Text (IsBlanks)

namespace Text

/-- The text in parentheses, with blanks around it. -/
def enclose (l r t : Text) : Text := '(' :: (l ++ t ++ r ++ [')'])

theorem isTrimmed_enclose (l r t : Text) : IsTrimmed (enclose l r t) where
  head := by
    intro c hc
    rw [← Option.some.inj hc]
    decide
  last := by
    intro c hc
    rw [enclose, ← List.cons_append, List.getLast?_concat] at hc
    rw [← Option.some.inj hc]
    decide

theorem balanced_enclose {l r t : Text} (hl : IsBlanks l) (hr : IsBlanks r) (h : Balanced t) :
    Balanced (enclose l r t) := by
  have hblanks {u : Text} (hu : IsBlanks u) : Neutral u :=
    neutral_of_not_mem (not_mem_of_isBlanks hu (by decide)) (not_mem_of_isBlanks hu (by decide))
  exact (((hblanks hl).append (neutral_of_balanced h)).append (hblanks hr)).group.balanced

/-! ## An opening parenthesis and blanks -/

theorem exists_last_opening {l : Text} (hl : IsBlanks l) :
    ∃ c, ('(' :: l).getLast? = some c ∧ c ∉ Token.rootWord ∧ c ∉ ['-', '+'] ∧
      Group.endsOperand c = false := by
  have hopening : '(' ∉ Token.rootWord ∧ '(' ∉ ['-', '+'] ∧ Group.endsOperand '(' = false := by decide
  cases hlast : l.getLast? with
  | none =>
    rw [List.getLast?_eq_none_iff.1 hlast]
    exact ⟨'(', rfl, hopening⟩
  | some c =>
    have hblank := hl c (List.mem_of_getLast? hlast)
    have hnot {t : Text} (ht : t.any isBlank = false) : c ∉ t := fun hc => by
      rw [List.any_eq_true.2 ⟨c, hc, hblank⟩] at ht
      cases ht
    refine ⟨c, by rw [List.getLast?_cons, hlast]; rfl, hnot (by decide), hnot (by decide), ?_⟩
    rw [← Bool.not_eq_true]
    intro hends
    rw [Group.not_isBlank_of_endsOperand hends] at hblank
    cases hblank

theorem trimEnd_opening {l : Text} (hl : IsBlanks l) (t : Text) :
    ∃ l', IsBlanks l' ∧ trimEnd ('(' :: (l ++ t)) = '(' :: l' ++ trimEnd t := by
  have hopening := trimEnd_append_cons [] (c := '(') (by decide) (l ++ t)
  rw [List.nil_append, List.nil_append] at hopening
  rw [hopening, trimEnd_append]
  split
  next hnil =>
    have hempty : trimEnd l = [] := trimEnd_append_of_isBlanks hl []
    exact ⟨[], isBlanks_nil, by rw [hempty, hnil]; rfl⟩
  next => exact ⟨l, hl, rfl⟩

end Text

namespace Group

/-! ## A group of the text -/

/-- The group in the text in parentheses. -/
def enclose (l r : Text) (g : Group) : Group :=
  { g with before := '(' :: (l ++ g.before), after := g.after ++ r ++ [')'] }

theorem text_enclose (l r : Text) (g : Group) : (g.enclose l r).text = Text.enclose l r g.text := by
  simp [text, enclose, Text.enclose]

variable {l r : Text} (hl : IsBlanks l) (hr : IsBlanks r) (g : Group)

include hl

theorem front_enclose : (g.enclose l r).front.2 = g.front.2 ∧ ∃ l', IsBlanks l' ∧
    Text.trimEnd (g.enclose l r).front.1 = '(' :: l' ++ Text.trimEnd g.front.1 := by
  obtain ⟨l', hl', htrim⟩ := Text.trimEnd_opening hl g.before
  obtain ⟨c, hlast, hword, -, -⟩ := Text.exists_last_opening hl'
  have hdrop := Text.dropEnding?_append_of_not_mem hlast hword (Text.trimEnd g.before)
  rw [← htrim] at hdrop
  unfold front enclose
  dsimp only
  rw [hdrop]
  cases Text.dropEnding? Token.rootWord (Text.trimEnd g.before) with
  | none => exact ⟨rfl, l', hl', htrim⟩
  | some f => exact ⟨rfl, Text.trimEnd_opening hl' f⟩

include hr

theorem checkNeighbours_enclose : (g.enclose l r).checkNeighbours = g.checkNeighbours := by
  obtain ⟨-, l', hl', htrim⟩ := g.front_enclose (r := r) hl
  obtain ⟨c, hlast, -, -, hends⟩ := Text.exists_last_opening hl'
  have hbefore : (Text.trimEnd (g.enclose l r).front.1).getLast?.any endsOperand =
      (Text.trimEnd g.front.1).getLast?.any endsOperand := by
    rw [htrim, List.getLast?_append, hlast]
    cases (Text.trimEnd g.front.1).getLast? with
    | none => exact hends
    | some d => rfl
  have hafter : (Text.trimStart (g.enclose l r).after).head?.any startsOperand =
      (Text.trimStart g.after).head?.any startsOperand := by
    have hempty : Text.trimStart r = [] := by
      have h := Text.trimStart_append_of_isBlanks hr []
      rwa [List.append_nil] at h
    show (Text.trimStart (g.after ++ r ++ [')'])).head?.any startsOperand = _
    rw [Text.head?_trimStart_append_cons _ (by decide), Text.trimStart_append, hempty]
    cases Text.trimStart g.after with
    | nil => rfl
    | cons d t => rfl
  unfold checkNeighbours
  rw [hbefore, hafter]

theorem value_enclose : (g.enclose l r).value = g.value := by
  unfold value
  rw [checkNeighbours_enclose hl hr, (g.front_enclose hl).1]
  rfl

omit hr in
theorem exists_splice_enclose : ∃ l', IsBlanks l' ∧
    ∀ x, (g.enclose l r).splice x = Text.enclose l' r (g.splice x) := by
  obtain ⟨-, l', hl', htrim⟩ := g.front_enclose (r := r) hl
  obtain ⟨c, hlast, -, hsign, -⟩ := Text.exists_last_opening hl'
  refine ⟨l', hl', fun x => ?_⟩
  unfold splice
  rw [htrim, absorbSign_append hlast hsign]
  simp [enclose, Text.enclose]

end Group

/-! ## A flat text -/

theorem Split.ofText_congr {t u : Text} (h : Text.trim t = Text.trim u) : ofText t = ofText u := by
  rw [ofText, ofText, h]

namespace Reduction

theorem eval_enclose_of_flat {l r t : Text} (hl : IsBlanks l) (hr : IsBlanks r) (hopening : '(' ∉ t)
    (hclosing : ')' ∉ t) {x : Binary64} (h : (Split.ofText t).eval = .ok x) :
    (ofText (Text.enclose l r t)).eval = .ok x.unsignedZero := by
  have hnot {c : Char} (hc : c ∉ t) (hblank : Text.isBlank c = false) : c ∉ l ++ t ++ r := by
    simp [hc, Text.not_mem_of_isBlanks hl hblank, Text.not_mem_of_isBlanks hr hblank]
  have hgroup := eval_group isFront_nil isBehind_nil (hnot hopening (by decide))
    (hnot hclosing (by decide)) (closes_nil_iff.2 rfl)
  rw [Split.ofText_congr (Text.trim_append_of_isBlanks hl hr t), h] at hgroup
  refine hgroup.trans ?_
  show (ofText (written [] x [])).eval = .ok x.unsignedZero
  rw [written_nil]
  exact eval_of_literal? (literal?_plain (Split.isFinite_of_eval h))

/-! ## The whole reduction -/

/-- **A text in parentheses reduces to the value of the text**, a zero without its sign. -/
theorem eval_enclose {l r t : Text} (hl : IsBlanks l) (hr : IsBlanks r) {x : Binary64}
    (h : (ofText t).eval = .ok x) : (ofText (Text.enclose l r t)).eval = .ok x.unsignedZero := by
  fun_induction ofText t generalizing l r with
  | case1 => cases h
  | case2 t value hvalue =>
    obtain rfl := Except.ok.inj h
    obtain ⟨hopening, hclosing⟩ := parens_not_mem_of_literal? hvalue
    exact eval_enclose_of_flat hl hr hopening hclosing
      (Split.eval_of_literal? (isGraphic_of_literal? hvalue) hvalue)
  | case3 => cases h
  | case4 t hliteral hscan hfirst =>
    have hbalanced : Balanced t := Classical.byContradiction fun hnot =>
      hscan (Option.isNone_iff_eq_none.2 (Parens.scan?_eq_none_iff.2 hnot))
    obtain ⟨hopening, hclosing⟩ := (Group.first?_eq_none_iff hbalanced).1 hfirst
    exact eval_enclose_of_flat hl hr hopening hclosing h
  | case5 => cases h
  | case6 t hliteral hscan g hfirst result hresolve ih =>
    have hbalanced : Balanced t := Classical.byContradiction fun hnot =>
      hscan (Option.isNone_iff_eq_none.2 (Parens.scan?_eq_none_iff.2 hnot))
    obtain rfl := Group.text_of_first? hfirst
    obtain ⟨y, hvalue, rfl⟩ := Group.resolve_eq_ok_iff.1 hresolve
    have hfront : ')' ∉ (g.enclose l r).before := by
      simp [Group.enclose, Group.closing_not_mem_of_first? hfirst,
        Text.not_mem_of_isBlanks hl (show Text.isBlank ')' = false by decide)]
    have henclosed : Balanced (g.enclose l r).text := by
      rw [Group.text_enclose]
      exact Text.balanced_enclose hl hr hbalanced
    rw [← Group.text_enclose, eval_text _ hfront henclosed, Group.value_enclose hl hr, hvalue]
    -- what the trimming takes off the text are blanks inside the parentheses
    obtain ⟨l', hl', hsplice⟩ := Group.exists_splice_enclose (r := r) hl g
    obtain ⟨bl, br, hbl, hbr, hsum⟩ := Text.eq_append_trim_append (g.splice y)
    have hresult : (g.enclose l r).splice y =
        Text.enclose (l' ++ bl) (br ++ r) (Text.trim (g.splice y)) := by
      rw [hsplice]
      conv => lhs; rw [hsum]
      simp [Text.enclose]
    show (ofText (Text.trim ((g.enclose l r).splice y))).eval = .ok x.unsignedZero
    rw [hresult, Text.trim_of_isTrimmed (Text.isTrimmed_enclose _ _ _)]
    exact ih (hl'.append hbl) (hbr.append hr) h

end Reduction

end DeskCalculator
