import DeskCalculator.Proofs.Reduction.Order

/-!
# What a step writes

A step writes one literal in the place of one group (`Group.nonempty_replacement`). What stands around
the group stays, but for blanks right in front of it and a sign there that may turn around, and the
digits of the literal run into no others. So a text loses one pair of parentheses with each step: it
has one opening parenthesis less (`Group.count_splice`), and it is nested no deeper
(`Group.nesting_splice_le`).
-/

namespace DeskCalculator

open Literal (isNumeral)
open Text (IsBlanks)

/-- A text in which a literal has taken the place of a group with a value. In front of the group stood
the word for a root or nothing, with blanks on its sides; the sign in front of these, if it is one that
turns around, has become the other one. -/
structure Replacement (g : Group) (x : Binary64) (new : Text) where
  /-- What stays in front. -/
  head : Text
  /-- The sign that turns around, if there is one. -/
  sign : Text
  newSign : Text
  gap : Text
  word : Text
  space : Text
  /-- The number that the literal stands for. -/
  written : Binary64
  minus : Text
  digits : Text
  before_eq : g.before = head ++ sign ++ gap ++ word ++ space
  new_eq : new = head ++ newSign ++ (minus ++ digits) ++ g.after
  gap_isBlanks : IsBlanks gap
  space_isBlanks : IsBlanks space
  word_eq : word = if g.front.2 then Token.rootWord else []
  turn : sign = [] ∧ newSign = [] ∧ written = x ∨ x.isBelowZero = true ∧ written = x.neg ∧
    (sign = ['-'] ∧ newSign = ['+'] ∨ sign = ['+'] ∧ newSign = ['-'])
  literal : literal? (minus ++ digits) = .ok (some written.unsignedZero)
  minus_cases : minus = [] ∨ minus = ['-']
  digits_isUnsigned : Literal.isUnsigned digits = true
  /-- No run of digits ends right in front of the digits. -/
  front_seam : ∀ c ∈ (head ++ newSign ++ minus).getLast?, isNumeral c = false
  /-- No run of digits goes on right behind the digits. -/
  back_seam : ∀ c ∈ g.after.head?, isNumeral c = false

theorem exists_digits_of_plain {x : Binary64} (hx : x.isFinite = true) :
    ∃ minus digits, x.plain = minus ++ digits ∧ (minus = [] ∨ minus = ['-']) ∧
      Literal.isUnsigned digits = true := by
  obtain ⟨body, -, hbody, -, hplain | hplain | hplain⟩ := exists_unsigned_of_literal? (literal?_plain hx)
  · exact ⟨[], body, hplain, .inl rfl, hbody⟩
  · have hplus : '+' ∈ x.plain := by simp [hplain]
    exact absurd hplus (Binary64.not_mem_plain (by decide) (by decide))
  · exact ⟨['-'], body, hplain, .inr rfl, hbody⟩

namespace Group

variable {g : Group} {x : Binary64}

/-- In front of a group stand its front, the word for the root, if it is there, and blanks. -/
theorem exists_before_eq (g : Group) : ∃ gap space, IsBlanks gap ∧ IsBlanks space ∧
    g.before =
      Text.trimEnd g.front.1 ++ gap ++ (if g.front.2 then Token.rootWord else []) ++ space := by
  obtain ⟨gap, hgap, hfront⟩ := Text.eq_trimEnd_append g.front.1
  rcases g.before_eq with h | ⟨hroot, h⟩
  · refine ⟨gap, [], hgap, Text.isBlanks_nil, ?_⟩
    rw [← hfront, h]
    simp
  · obtain ⟨space, hspace, hbefore⟩ := Text.eq_trimEnd_append g.before
    refine ⟨gap, space, hgap, hspace, ?_⟩
    rw [← hfront, if_pos hroot, ← h]
    exact hbefore

theorem nonempty_replacement_of_placed {head sign newSign : Text} {y : Binary64}
    (hvalue : g.value = .ok x) (hfront : Text.trimEnd g.front.1 = head ++ sign)
    (hplaced : g.placed x = (head ++ newSign, y))
    (hturn : sign = [] ∧ newSign = [] ∧ y = x ∨ x.isBelowZero = true ∧ y = x.neg ∧
      (sign = ['-'] ∧ newSign = ['+'] ∨ sign = ['+'] ∧ newSign = ['-'])) :
    Nonempty (Replacement g x (g.splice x)) := by
  obtain ⟨hcheck, -⟩ := exists_of_value hvalue
  obtain ⟨gap, space, hgap, hspace, hbefore⟩ := g.exists_before_eq
  have hfinite : y.isFinite = true := by
    have h := isFinite_placed (g := g) (isFinite_of_value hvalue)
    rwa [hplaced] at h
  obtain ⟨minus, digits, hplain, hminus, hdigits⟩ := exists_digits_of_plain hfinite
  refine ⟨{ head, sign, newSign, gap, word := _, space, written := y, minus, digits, before_eq := ?_,
            new_eq := ?_, gap_isBlanks := hgap, space_isBlanks := hspace, word_eq := rfl,
            turn := hturn, literal := ?_, minus_cases := hminus, digits_isUnsigned := hdigits,
            front_seam := ?_, back_seam := head?_after hcheck }⟩
  · rw [← hfront]
    exact hbefore
  · rw [splice_eq, hplaced, hplain]
  · rw [← hplain]
    exact literal?_plain hfinite
  · have hend := getLast?_placed (x := x) hcheck
    rw [hplaced] at hend
    intro c hc
    rcases hminus with rfl | rfl
    · rw [List.append_nil] at hc
      have hnot := (hend c hc).2
      simp only [endsOperand, Bool.or_eq_false_iff] at hnot
      simp [isNumeral, hnot]
    · rw [List.getLast?_concat] at hc
      obtain rfl := Option.some.inj hc
      decide

/-- **A step writes one literal for one group.** -/
theorem nonempty_replacement (hvalue : g.value = .ok x) :
    Nonempty (Replacement g x (g.splice x)) := by
  rcases absorbSign_cases (Text.trimEnd g.front.1) x with h | ⟨hbelow, f, ⟨hf, h⟩ | ⟨hf, h⟩⟩
  · have hfront : Text.trimEnd g.front.1 = Text.trimEnd g.front.1 ++ [] := (List.append_nil _).symm
    have hplaced : g.placed x = (Text.trimEnd g.front.1 ++ [], x) := by
      rw [← hfront]
      exact h
    exact nonempty_replacement_of_placed hvalue hfront hplaced (.inl ⟨rfl, rfl, rfl⟩)
  · exact nonempty_replacement_of_placed hvalue hf h (.inr ⟨hbelow, rfl, .inl ⟨rfl, rfl⟩⟩)
  · exact nonempty_replacement_of_placed hvalue hf h (.inr ⟨hbelow, rfl, .inr ⟨rfl, rfl⟩⟩)

/-! ## The parentheses that are left -/

theorem count_splice (g : Group) (x : Binary64) :
    (g.splice x).count '(' + 1 = g.text.count '(' := by
  have hopening : isParen '(' = true := rfl
  rw [← List.count_filter hopening, ← List.count_filter (l := g.text) hopening,
    filter_isParen_splice, filter_isParen_text]
  simp only [List.count_append, List.count_cons, beq_self_eq_true, if_true]
  simp
  omega

end Group

/-- Without a pair of parentheses a text is nested no deeper. -/
theorem nesting_append_le (l r : Text) : nesting (l ++ r) ≤ nesting (l ++ '(' :: ')' :: r) := by
  obtain ⟨u, hu, hcount⟩ := exists_count_eq_nesting (l ++ r)
  rcases List.prefix_or_prefix_of_prefix hu (List.prefix_append l r) with hul | ⟨v, rfl⟩
  · have hle := count_le_nesting (hul.trans (List.prefix_append l ('(' :: ')' :: r)))
    omega
  · have hv : v <+: r := (List.prefix_append_right_inj l).1 hu
    have hle := count_le_nesting ((List.prefix_append_right_inj l).2
      ((List.prefix_cons_inj '(').2 ((List.prefix_cons_inj ')').2 hv)))
    simp only [List.count_append, List.count_cons] at hle hcount
    simp at hle
    omega

theorem Group.nesting_splice_le (g : Group) (x : Binary64) :
    nesting (g.splice x) ≤ nesting g.text := by
  rw [← nesting_filter, ← nesting_filter g.text, filter_isParen_splice, filter_isParen_text]
  exact nesting_append_le _ _

end DeskCalculator
