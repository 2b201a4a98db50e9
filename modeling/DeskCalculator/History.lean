import DeskCalculator.Json

/-!
# History

The history keeps the last results, oldest first, and at most as many as its capacity.
-/

namespace DeskCalculator

/-- A result in the history. -/
structure Entry where
  expression : Text
  result : Binary64
  /-- When it was calculated, in milliseconds of the epoch. -/
  time : Nat
  deriving DecidableEq

namespace Entry

/-- The expression and its result. -/
def display (e : Entry) : Text := e.expression ++ " = ".toList ++ e.result.general

/-- The entry for other programs. -/
def toJson (e : Entry) : Json :=
  .object [("expression".toList, .text e.expression), ("result".toList, .number e.result),
    ("timestamp".toList, .natural e.time)]

end Entry

/-- The last results. -/
structure History where
  capacity : Nat
  /-- The entries, oldest first. -/
  entries : List Entry
  length_le : entries.length ≤ capacity

namespace History

/-- The capacity of a history if no other is set. -/
def standardCapacity : Nat := 50

/-- The history with no entry. -/
def empty (capacity : Nat) : History := ⟨capacity, [], Nat.zero_le _⟩

/-- Adds an entry; the oldest ones that are past the capacity drop out. -/
def push (h : History) (e : Entry) : History where
  capacity := h.capacity
  entries := (h.entries ++ [e]).drop (h.entries.length + 1 - h.capacity)
  length_le := by
    simp only [List.length_drop, List.length_append, List.length_singleton]
    omega

/-- Adds a result that was calculated at a time. -/
def record (h : History) (expression : Text) (result : Binary64) (time : Nat) : History :=
  h.push ⟨expression, result, time⟩

/-- Removes all entries. -/
def clear (h : History) : History := empty h.capacity

/-- The display of the entries, newest first. -/
def lines (h : History) : List Text := h.entries.reverse.map Entry.display

/-- The entries for other programs, oldest first. -/
def toJson (h : History) : Json := .array (h.entries.map Entry.toJson)

@[simp] theorem capacity_push (h : History) (e : Entry) : (h.push e).capacity = h.capacity := rfl

@[simp] theorem capacity_clear (h : History) : h.clear.capacity = h.capacity := rfl

@[simp] theorem entries_clear (h : History) : h.clear.entries = [] := rfl

/-- A history without room stays empty. -/
theorem entries_push_of_capacity_eq_zero {h : History} (hzero : h.capacity = 0) (e : Entry) :
    (h.push e).entries = [] := by
  have hle := (h.push e).length_le
  rw [capacity_push, hzero] at hle
  exact List.eq_nil_of_length_eq_zero (Nat.le_zero.1 hle)

end History

end DeskCalculator
