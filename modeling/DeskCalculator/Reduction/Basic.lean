import DeskCalculator.Parens.Group
import DeskCalculator.Reduction.Split

/-!
# Reducing a text

A text with groups is reduced step by step: a group is evaluated and its value is written in its
place (`Group.resolve`), until the text is a literal or has no group left. The run of the steps is a
value (`Reduction`), of which the outcome (`eval`) and the events (`events`) are folds.

A step takes one opening parenthesis out of the text and writes none (`count_splice`); this is why a
reduction ends.
-/

namespace DeskCalculator

namespace Group

/-! ## One step -/

/-- The text in front of a group and of the word for a square root, and whether that word is there.
-/
def front (g : Group) : Text × Bool :=
  match Text.dropEnding? Token.rootWord (Text.trimEnd g.before) with
  | some front => (front, true)
  | none => (g.before, false)

/-- A character that ends an operand. -/
def endsOperand (c : Char) : Bool := c.isDigit || c == '.' || c == ')'

/-- A character that starts an operand. -/
def startsOperand (c : Char) : Bool := c.isAlphanum || c == '.' || c == '('

/-- A group is no operand beside another operand. -/
def checkNeighbours (g : Group) : Outcome Unit :=
  if (Text.trimEnd g.front.1).getLast?.any endsOperand then
    .error (.invalid .operatorMissingBefore)
  else if (Text.trimStart g.after).head?.any startsOperand then
    .error (.invalid .operatorMissingAfter)
  else .ok ()

/-- The value of a group, of which the root is taken if the word is there. -/
def value (g : Group) : Outcome Binary64 := do
  g.checkNeighbours
  let x ← (Split.ofText g.inside).eval
  if g.front.2 then squareRoot x else return x

/-- A text and the value to write behind it, where the sign of a value below zero goes into a sign
at the end of the text, which it turns around. -/
def absorbSign (front : Text) (x : Binary64) : Text × Binary64 :=
  if x.isBelowZero then
    match front.getLast? with
    | some '-' => (front.dropLast ++ ['+'], x.neg)
    | some '+' => (front.dropLast ++ ['-'], x.neg)
    | _ => (front, x)
  else (front, x)

/-- The text with a value in place of the group. -/
def splice (g : Group) (x : Binary64) : Text :=
  let placed := absorbSign (Text.trimEnd g.front.1) x
  placed.1 ++ placed.2.plain ++ g.after

/-- The text with the group's value in place of the group. -/
def resolve (g : Group) : Outcome Text := g.value.map g.splice

/-- The events of a group's evaluation. -/
def events (g : Group) : List Event :=
  match g.checkNeighbours with
  | .error _ => []
  | .ok _ => (Split.ofText g.inside).events

/-! ## A step removes one opening parenthesis -/

theorem count_front_le (g : Group) : g.front.1.count '(' ≤ g.before.count '(' := by
  unfold front
  split
  next front h =>
    have hsub := (Text.trimEnd_sublist g.before).count_le '('
    rw [Text.eq_append_of_dropEnding? h, List.count_append] at hsub
    exact Nat.le_trans (Nat.le_add_right _ _) hsub
  next => exact Nat.le_refl _

theorem count_absorbSign_le (front : Text) (x : Binary64) :
    (absorbSign front x).1.count '(' ≤ front.count '(' := by
  have hdrop := (List.dropLast_sublist front).count_le '('
  unfold absorbSign
  split
  · split
    · simpa [List.count_append] using hdrop
    · simpa [List.count_append] using hdrop
    · exact Nat.le_refl _
  · exact Nat.le_refl _

theorem count_splice_lt (g : Group) (x : Binary64) : (g.splice x).count '(' < g.text.count '(' := by
  have hplaced : (absorbSign (Text.trimEnd g.front.1) x).1.count '(' ≤ g.before.count '(' :=
    Nat.le_trans (count_absorbSign_le _ _)
      (Nat.le_trans ((Text.trimEnd_sublist _).count_le _) g.count_front_le)
  have hplain : (absorbSign (Text.trimEnd g.front.1) x).2.plain.count '(' = 0 :=
    List.count_eq_zero.2 (Binary64.not_mem_plain (by decide) (by decide))
  have hinside : g.inside.count '(' = 0 := List.count_eq_zero.2 g.opening_not_mem
  simp only [splice, text, List.count_append, List.count_cons, hplain, hinside]
  simp
  omega

end Group

/-! ## The whole reduction -/

/-- The steps of a reduction. -/
inductive Reduction where
  /-- The text is a literal, or it cannot be reduced. -/
  | done (outcome : Outcome Binary64)
  /-- The text has no group. -/
  | flat (split : Split)
  /-- The group has no value. -/
  | stuck (group : Group) (error : CalcError)
  /-- The group is replaced by its value, which gives `result`. -/
  | step (group : Group) (result : Text) (next : Reduction)

namespace Reduction

/-- The reduction of a text. -/
def ofText (t : Text) : Reduction :=
  match literal? t with
  | .error e => .done (.error e)
  | .ok (some value) => .done (.ok value)
  | .ok none =>
    if (Parens.scan? t).isNone then .done (.error .mismatchedParentheses)
    else
      match _hg : Group.first? t with
      | none => .flat (Split.ofText t)
      | some g =>
        match _hr : g.resolve with
        | .error e => .stuck g e
        | .ok result => .step g result (ofText (Text.trim result))
termination_by t.count '('
decreasing_by
  rw [← Group.text_of_first? _hg]
  unfold Group.resolve at _hr
  cases hv : g.value with
  | error => simp [hv, Except.map] at _hr
  | ok x =>
    simp only [hv, Except.map, Except.ok.injEq] at _hr
    rw [← _hr]
    exact Nat.lt_of_le_of_lt (Text.count_trim_le _ _) (g.count_splice_lt x)

/-- What a reduction comes to. -/
def eval : Reduction → Outcome Binary64
  | done outcome => outcome
  | flat split => split.eval
  | stuck _ e => .error e
  | step _ _ next => next.eval

/-- The events of a reduction. -/
def events : Reduction → List Event
  | done _ => []
  | flat split => split.events
  | stuck g _ => g.events
  | step g result next => g.events ++ .resolved g.text result :: next.events

end Reduction

end DeskCalculator
