import DeskCalculator.Operation
import DeskCalculator.Text.Blank
import DeskCalculator.Trace

/-!
# Splitting a flat text

A text without groups is split at the last occurrence of the first operator, along
`Operator.scanOrder`, that occurs behind the first character; both parts are split further until a
part is a literal or cannot be read. The tree of these splits is a value (`Split`), of which the
outcome (`eval`) and the events (`events`) are folds.
-/

namespace DeskCalculator

/-- Where a flat text is cut: the operator and the texts on its sides. -/
def cutAt? (op : Operator) (t : Text) : Option (Operator × Text × Text) :=
  match Text.splitLast? op.symbol t with
  | some (c :: before, after) => some (op, c :: before, after)
  | _ => none

/-- The first operator of the scan order that a flat text can be cut at. -/
def cut? (t : Text) : Option (Operator × Text × Text) := Operator.scanOrder.findSome? (cutAt? · t)

theorem eq_append_of_cut? {t left right : Text} {op : Operator}
    (h : cut? t = some (op, left, right)) : t = left ++ op.symbol :: right := by
  obtain ⟨o, -, ho⟩ := List.exists_of_findSome?_eq_some h
  unfold cutAt? at ho
  split at ho
  next hsplit =>
    simp only [Option.some.injEq, Prod.mk.injEq] at ho
    obtain ⟨rfl, rfl, rfl⟩ := ho
    exact Text.eq_append_of_splitLast? hsplit
  next => simp at ho

/-- The tree of the splits of a flat text. -/
inductive Split where
  /-- A part that is not split further, with what it comes to. -/
  | leaf (outcome : Outcome Binary64)
  /-- A text with an operator at a byte offset, and the parts on its sides. -/
  | node (text : Text) (op : Operator) (offset : Nat) (left right : Split)

namespace Split

/-- Splits a text as far as it can be split. -/
def ofText (t : Text) : Split :=
  if Text.trim t = [] then .leaf (.error (.invalid .emptySubexpression))
  else
    match literal? (Text.trim t) with
    | .error e => .leaf (.error e)
    | .ok (some value) => .leaf (.ok value)
    | .ok none =>
      match _h : cut? (Text.trim t) with
      | none => .leaf (.error (.invalid (.unreadable (Text.trim t))))
      | some (op, left, right) =>
        .node (Text.trim t) op (Text.byteLength left) (ofText left) (ofText right)
termination_by t.length
decreasing_by
  all_goals
    have hlen := congrArg List.length (eq_append_of_cut? _h)
    have htrim := Text.length_trim_le t
    simp only [List.length_append, List.length_cons] at hlen
    omega

/-- What the text comes to; the left part is evaluated first. -/
def eval : Split → Outcome Binary64
  | leaf outcome => outcome
  | node _ op _ left right => do
    let x ← left.eval
    let y ← right.eval
    op.apply x y

/-- The events of the evaluation, which ends with its first error. -/
def events : Split → List Event
  | leaf _ => []
  | node text op offset left right =>
    let later := if left.eval.isOk then right.events else []
    .split text op offset :: (left.events ++ later)

end Split

end DeskCalculator
