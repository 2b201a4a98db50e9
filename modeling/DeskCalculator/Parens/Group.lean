import DeskCalculator.Parens.Basic

/-!
# Innermost groups

A group is a pair of parentheses with no parenthesis between them, and the text that it stands in.
`Group.first?` finds the group of a text that closes first: the first closing parenthesis and the
last opening one before it.
-/

namespace DeskCalculator

/-- A pair of parentheses with no parenthesis between them, in its text. -/
structure Group where
  before : Text
  inside : Text
  after : Text
  opening_not_mem : '(' ∉ inside
  closing_not_mem : ')' ∉ inside
  deriving DecidableEq

namespace Group

/-- The whole text that a group stands in. -/
def text (g : Group) : Text := g.before ++ '(' :: (g.inside ++ ')' :: g.after)

/-- The group that closes first. -/
def first? (t : Text) : Option Group :=
  match t.dropWhile (· != ')') with
  | [] => none
  | _ :: after =>
    match h : Text.splitLast? '(' (t.takeWhile (· != ')')) with
    | none => none
    | some (before, inside) =>
      some
        { before, inside, after
          opening_not_mem := Text.not_mem_after_splitLast? h
          closing_not_mem := by
            intro hmem
            have hfront : ')' ∈ t.takeWhile (· != ')') := by
              rw [Text.eq_append_of_splitLast? h]
              exact List.mem_append_right _ (List.mem_cons_of_mem _ hmem)
            simpa using List.all_eq_true.1 List.all_takeWhile _ hfront }

theorem text_of_first? {t : Text} {g : Group} (h : first? t = some g) : g.text = t := by
  unfold first? at h
  split at h
  next => simp at h
  next c after hdrop =>
    split at h
    next => simp at h
    next before inside hsplit =>
      have hc : c = ')' := by
        have hhead := List.head?_dropWhile_not (· != ')') t
        rw [hdrop] at hhead
        simpa using hhead
      obtain rfl := Option.some.inj h
      have hsum := List.takeWhile_append_dropWhile (p := (· != ')')) (l := t)
      rw [hdrop, Text.eq_append_of_splitLast? hsplit, hc] at hsum
      refine Eq.trans ?_ hsum
      simp [text]

/-- A group behind which no other closes first is the first one. -/
theorem first?_text (g : Group) (h : ')' ∉ g.before) : first? g.text = some g := by
  have hfront : ∀ c ∈ g.before ++ '(' :: g.inside, (c != ')') = true := by
    intro c hc
    rw [bne_iff_ne]
    rintro rfl
    rcases List.mem_append.1 hc with hc | hc
    · exact h hc
    · exact g.closing_not_mem (by simpa using hc)
  have htext : g.text = (g.before ++ '(' :: g.inside) ++ ')' :: g.after := by simp [text]
  have htake : g.text.takeWhile (· != ')') = g.before ++ '(' :: g.inside := by
    rw [htext, List.takeWhile_append_of_pos hfront]
    simp
  have hdrop : g.text.dropWhile (· != ')') = ')' :: g.after := by
    rw [htext, List.dropWhile_append_of_pos hfront]
    simp
  have hsplit := Text.splitLast?_append_cons g.opening_not_mem g.before
  unfold first?
  split
  next hnil =>
    rw [hdrop] at hnil
    cases hnil
  next c after hcons =>
    rw [hdrop] at hcons
    obtain ⟨-, rfl⟩ := List.cons.inj hcons
    split
    next hnone =>
      rw [htake, hsplit] at hnone
      cases hnone
    next before inside hsome =>
      rw [htake, hsplit] at hsome
      obtain ⟨hbefore, hinside⟩ := Prod.mk.inj (Option.some.inj hsome)
      cases g
      simp_all

end Group

end DeskCalculator
