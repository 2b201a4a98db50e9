import DeskCalculator.Proofs.Decimal.ReadBack
import DeskCalculator.Proofs.Token.Segmentation
import DeskCalculator.Reduction.Basic

/-!
# One step of a reduction

What a group's value comes from (`Group.exists_of_value`), what becomes of the text in front of the
group (`Group.before_eq`, `Group.absorbSign_cases`), and which characters stand at the two seams of the
new text (`Group.getLast?_placed`, `Group.head?_after`).
-/

namespace DeskCalculator

open Literal (isNumeral)

/-! ## Values of texts are finite -/

theorem Split.isFinite_of_eval {t : Text} {x : Binary64} (h : (Split.ofText t).eval = .ok x) :
    x.isFinite = true := by
  fun_induction Split.ofText t with
  | case1 => simp [eval] at h
  | case2 => simp [eval] at h
  | case3 t _ value hvalue =>
    obtain rfl := Except.ok.inj h
    exact isFinite_of_literal? hvalue
  | case4 => simp [eval] at h
  | case5 t _ _ op left right _ _ _ =>
    obtain ⟨y, -, h⟩ := bind_eq_ok_iff.1 h
    obtain ⟨z, -, h⟩ := bind_eq_ok_iff.1 h
    exact isFinite_of_apply h

theorem plain_ends {x : Binary64} (hx : x.isFinite = true) :
    (∀ c ∈ x.plain.head?, c.isAlpha = false) ∧
      ∃ c, x.plain.getLast? = some c ∧ isNumeral c = true := by
  obtain ⟨body, y, hbody, -, hsign⟩ := exists_unsigned_of_literal? (literal?_plain hx)
  have hall := hbody
  simp only [Literal.isUnsigned, Bool.and_eq_true, List.all_eq_true] at hall
  obtain ⟨⟨hnumeral, hdigit⟩, -⟩ := hall
  have hne : body ≠ [] := by
    rintro rfl
    simp at hdigit
  have hlast := List.getLast?_eq_some_getLast hne
  have hend := hnumeral _ (List.getLast_mem hne)
  have hsigned (sign : Char) : (sign :: body).getLast? = some (body.getLast hne) := by
    rw [List.getLast?_cons, hlast, Option.getD_some]
  rcases hsign with heq | heq | heq
  · rw [heq]
    refine ⟨fun c hc => ?_, _, hlast, hend⟩
    exact not_isAlpha_of_isNumeral (hnumeral c (List.mem_of_head? hc))
  · rw [heq]
    refine ⟨fun c hc => ?_, _, hsigned '+', hend⟩
    rw [← Option.some.inj hc]
    decide
  · rw [heq]
    refine ⟨fun c hc => ?_, _, hsigned '-', hend⟩
    rw [← Option.some.inj hc]
    decide

namespace Group

variable {g : Group} {x : Binary64}

theorem exists_of_value (h : g.value = .ok x) :
    g.checkNeighbours = .ok () ∧ ∃ y, (Split.ofText g.inside).eval = .ok y ∧
      (if g.front.2 then squareRoot y else .ok y) = .ok x := by
  obtain ⟨u, hcheck, h⟩ := bind_eq_ok_iff.1 h
  obtain ⟨y, hinside, h⟩ := bind_eq_ok_iff.1 h
  exact ⟨hcheck, y, hinside, h⟩

theorem isFinite_of_value (h : g.value = .ok x) : x.isFinite = true := by
  obtain ⟨-, y, hy, hroot⟩ := exists_of_value h
  split at hroot
  · exact isFinite_of_squareRoot hroot
  · obtain rfl := Except.ok.inj hroot
    exact Split.isFinite_of_eval hy

theorem resolve_eq_ok_iff {result : Text} :
    g.resolve = .ok result ↔ ∃ x, g.value = .ok x ∧ g.splice x = result :=
  map_eq_ok_iff

theorem resolve_eq_error_iff {e : CalcError} : g.resolve = .error e ↔ g.value = .error e := by
  unfold resolve
  cases g.value <;> simp [Except.map]

/-! ## In front of the group -/

/-- Without the blanks at its end, the text before a group is its front and the word for the root,
if that word is there. -/
theorem before_eq (g : Group) :
    g.front = (g.before, false) ∨
      g.front.2 = true ∧ Text.trimEnd g.before = g.front.1 ++ Token.rootWord := by
  unfold front
  split
  next front h => exact .inr ⟨rfl, Text.eq_append_of_dropEnding? h⟩
  next => exact .inl rfl

/-- The sign of a value below zero turns a sign around, if one stands at the end. -/
theorem absorbSign_cases (front : Text) (x : Binary64) :
    absorbSign front x = (front, x) ∨ x.isBelowZero = true ∧
      ∃ f, front = f ++ ['-'] ∧ absorbSign front x = (f ++ ['+'], x.neg) ∨
        front = f ++ ['+'] ∧ absorbSign front x = (f ++ ['-'], x.neg) := by
  unfold absorbSign
  split
  next hbelow =>
    split
    next hlast =>
      obtain ⟨f, rfl⟩ := List.getLast?_eq_some_iff.1 hlast
      exact .inr ⟨hbelow, f, .inl ⟨rfl, by rw [List.dropLast_concat]⟩⟩
    next hlast =>
      obtain ⟨f, rfl⟩ := List.getLast?_eq_some_iff.1 hlast
      exact .inr ⟨hbelow, f, .inr ⟨rfl, by rw [List.dropLast_concat]⟩⟩
    next => exact .inl rfl
  next => exact .inl rfl

/-- The text in front of a group that has a value, with the sign of that value. -/
def placed (g : Group) (x : Binary64) : Text × Binary64 := absorbSign (Text.trimEnd g.front.1) x

theorem splice_eq (g : Group) (x : Binary64) :
    g.splice x = (g.placed x).1 ++ (g.placed x).2.plain ++ g.after := rfl

theorem isFinite_placed (hx : x.isFinite = true) : (g.placed x).2.isFinite = true := by
  unfold placed
  rcases absorbSign_cases (Text.trimEnd g.front.1) x with h | ⟨-, f, ⟨-, h⟩ | ⟨-, h⟩⟩ <;> rw [h]
  · exact hx
  · rwa [Binary64.isFinite_neg]
  · rwa [Binary64.isFinite_neg]

/-! ## The seams -/

theorem checkNeighbours_eq_ok_iff : g.checkNeighbours = .ok () ↔
    (∀ c ∈ (Text.trimEnd g.front.1).getLast?, endsOperand c = false) ∧
      ∀ c ∈ (Text.trimStart g.after).head?, startsOperand c = false := by
  unfold checkNeighbours
  cases (Text.trimEnd g.front.1).getLast? <;> cases (Text.trimStart g.after).head? <;> grind

theorem getLast?_placed (h : g.checkNeighbours = .ok ()) :
    ∀ c ∈ (g.placed x).1.getLast?, Text.isBlank c = false ∧ endsOperand c = false := by
  intro c hc
  unfold placed at hc
  rcases absorbSign_cases (Text.trimEnd g.front.1) x with heq | ⟨-, f, ⟨-, heq⟩ | ⟨-, heq⟩⟩
  · rw [heq] at hc
    exact ⟨Text.isBlank_of_getLast?_trimEnd hc, (checkNeighbours_eq_ok_iff.1 h).1 c hc⟩
  · rw [heq, List.getLast?_concat] at hc
    obtain rfl := Option.some.inj hc
    decide
  · rw [heq, List.getLast?_concat] at hc
    obtain rfl := Option.some.inj hc
    decide

theorem head?_after (h : g.checkNeighbours = .ok ()) :
    ∀ c ∈ g.after.head?, isNumeral c = false := by
  intro c hc
  cases hblank : Text.isBlank c with
  | true => exact (isMark_of_isBlank hblank).1
  | false =>
    have hhead : ∀ d ∈ g.after.head?, Text.isBlank d = false := by
      intro d hd
      obtain rfl : c = d := Option.mem_unique hc hd
      exact hblank
    have hstarts := (checkNeighbours_eq_ok_iff.1 h).2 c
    rw [Text.trimStart_of_head? hhead] at hstarts
    have hnot := hstarts hc
    simp only [startsOperand, Bool.or_eq_false_iff, Char.isAlphanum] at hnot
    simp [isNumeral, hnot]

end Group

end DeskCalculator
