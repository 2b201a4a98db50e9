import DeskCalculator.History
import Mathlib.Data.List.DropRight

/-!
# The window of a history

A history is a window on the entries that were added to it (`History.window_of_run`): behind any run of
edits it holds the last ones since it was cleared, as many as there is room for, in the order in which
they were added. Its lines show them from the other end.

An edit adds one entry or clears the history (`Edit.addition?`), and this is all that it does to the
entries (`History.entries_edit`). The entries that a run leaves behind the last clearing are a suffix
of all that it adds, so the induction is from the end of the run.
-/

namespace DeskCalculator

theorem rtake_rtake_concat {α : Type} (n : Nat) (l : List α) (x : α) :
    (l.rtake n ++ [x]).rtake n = (l ++ [x]).rtake n := by
  cases n with
  | zero => rw [List.rtake_zero, List.rtake_zero]
  | succ n =>
    have hagain : (l.rtake (n + 1)).rtake n = l.rtake n := by
      simp only [List.rtake_eq_reverse_take_reverse, List.reverse_reverse, List.take_take]
      rw [Nat.min_eq_left (Nat.le_succ n)]
    rw [List.rtake_concat_succ, List.rtake_concat_succ, hagain]

/-- What can be done with a history. -/
inductive Edit where
  | push (e : Entry)
  | record (expression : Text) (result : Binary64) (time : Nat)
  | clear
  deriving DecidableEq

namespace Edit

/-- The entry that an edit adds; a clearing adds none. -/
def addition? : Edit → Option Entry
  | push e => some e
  | record expression result time => some ⟨expression, result, time⟩
  | clear => none

/-- The entries that a run of edits adds behind its last clearing, in order. -/
def added (edits : List Edit) : List Entry := (edits.rtakeWhile (· ≠ clear)).filterMap addition?

theorem added_concat (edits : List Edit) (edit : Edit) :
    added (edits ++ [edit]) = edit.addition?.elim [] fun e => added edits ++ [e] := by
  unfold added
  rw [List.rtakeWhile_concat]
  cases edit with
  | push e => simp [addition?]
  | record expression result time => simp [addition?]
  | clear => simp [addition?]

theorem added_map_push (entries : List Entry) : added (entries.map push) = entries := by
  induction entries using List.reverseRecOn with
  | nil => rfl
  | append_singleton entries e ih =>
    rw [List.map_append, List.map_singleton, added_concat, ih]
    rfl

end Edit

namespace History

/-- The history behind an edit. -/
def edit (h : History) : Edit → History
  | .push e => h.push e
  | .record expression result time => h.record expression result time
  | .clear => h.clear

/-- The history behind a run of edits. -/
def run (h : History) (edits : List Edit) : History := edits.foldl edit h

theorem run_concat (h : History) (edits : List Edit) (e : Edit) :
    h.run (edits ++ [e]) = (h.run edits).edit e := by
  rw [run, List.foldl_append]
  rfl

/-! ## One edit -/

theorem entries_push (h : History) (e : Entry) :
    (h.push e).entries = (h.entries ++ [e]).rtake h.capacity := by
  rw [push, List.rtake, List.length_append, List.length_singleton]

/-- Drops the oldest entry as long as there is no room for one more. -/
def makeRoom (capacity : Nat) : List Entry → List Entry
  | [] => []
  | oldest :: entries =>
    if capacity ≤ (oldest :: entries).length then makeRoom capacity entries else oldest :: entries

theorem makeRoom_eq_drop (capacity : Nat) (entries : List Entry) :
    makeRoom capacity entries = entries.drop (entries.length + 1 - capacity) := by
  induction entries with
  | nil => rw [makeRoom, List.drop_nil]
  | cons oldest entries ih =>
    rw [makeRoom]
    split
    next hfull =>
      rw [List.length_cons] at hfull
      rw [ih, List.length_cons, Nat.sub_add_comm hfull, List.drop_succ_cons]
    next hroom =>
      have hzero : (oldest :: entries).length + 1 - capacity = 0 := by omega
      rw [hzero, List.drop_zero]

/-- An entry is added behind those that there is room for, unless there is no room at all. -/
theorem entries_push_eq_makeRoom (h : History) (e : Entry) :
    (h.push e).entries =
      if h.capacity = 0 then h.entries else makeRoom h.capacity h.entries ++ [e] := by
  split
  next hzero =>
    have hlength := h.length_le
    rw [hzero] at hlength
    rw [entries_push_of_capacity_eq_zero hzero, List.eq_nil_of_length_eq_zero (Nat.le_zero.1 hlength)]
  next hzero =>
    rw [makeRoom_eq_drop]
    exact List.drop_append_of_le_length (by omega)

theorem capacity_edit (h : History) (edit : Edit) : (h.edit edit).capacity = h.capacity := by
  cases edit <;> rfl

theorem entries_edit (h : History) (edit : Edit) :
    (h.edit edit).entries =
      edit.addition?.elim [] fun e => (h.entries ++ [e]).rtake h.capacity := by
  cases edit with
  | push e => exact h.entries_push e
  | record expression result time => exact h.entries_push ⟨expression, result, time⟩
  | clear => rfl

/-! ## A run -/

theorem capacity_run (h : History) (edits : List Edit) : (h.run edits).capacity = h.capacity := by
  induction edits generalizing h with
  | nil => rfl
  | cons edit edits ih => exact (ih (h.edit edit)).trans (h.capacity_edit edit)

theorem entries_run (capacity : Nat) (edits : List Edit) :
    ((empty capacity).run edits).entries = (Edit.added edits).rtake capacity := by
  induction edits using List.reverseRecOn with
  | nil => exact (List.rtake_nil capacity).symm
  | append_singleton edits edit ih =>
    have hcapacity : ((empty capacity).run edits).capacity = capacity :=
      (empty capacity).capacity_run edits
    rw [run_concat, entries_edit, Edit.added_concat, ih, hcapacity]
    cases edit.addition? with
    | none => exact (List.rtake_nil capacity).symm
    | some e => exact rtake_rtake_concat capacity (Edit.added edits) e

theorem entries_foldl_push (capacity : Nat) (entries : List Entry) :
    (entries.foldl push (empty capacity)).entries = entries.rtake capacity := by
  have hrun : (empty capacity).run (entries.map .push) = entries.foldl push (empty capacity) := by
    rw [run, List.foldl_map]
    rfl
  rw [← hrun, entries_run, Edit.added_map_push]

/-- **A history drops its oldest entries and no others.** Behind any run of edits of an empty history
it holds the entries that were added since it was cleared, or the last ones of them if there is not
room for all. They stand in the order in which they were added: the first is the oldest that is left
and the last is the newest; from the other end they are the newest ones, and so are the lines. There
are none if there is no room or if none was added. -/
theorem window_of_run (capacity : Nat) (edits : List Edit) :
    let h := (empty capacity).run edits
    let added := Edit.added edits
    h.capacity = capacity ∧
      h.entries = added.drop (added.length - capacity) ∧
      h.entries.length = min capacity added.length ∧
      h.entries.reverse = added.reverse.take capacity ∧
      h.lines = (added.reverse.take capacity).map Entry.display ∧
      h.entries.head? = added[added.length - capacity]? ∧
      h.entries.getLast? = (if capacity = 0 then none else added.getLast?) ∧
      (h.entries.isEmpty = true ↔ capacity = 0 ∨ added = []) ∧
      ∀ e, (h.push e).entries =
        if capacity = 0 then h.entries else makeRoom capacity h.entries ++ [e] := by
  intro h added
  have hentries : h.entries = added.drop (added.length - capacity) := entries_run capacity edits
  have hreverse : h.entries.reverse = added.reverse.take capacity := by
    rw [show h.entries = added.rtake capacity from entries_run capacity edits,
      List.rtake_eq_reverse_take_reverse, List.reverse_reverse]
  have hlength : h.entries.length = min capacity added.length := by
    rw [hentries, List.length_drop]
    omega
  have hcapacity : h.capacity = capacity := (empty capacity).capacity_run edits
  refine ⟨hcapacity, hentries, hlength, hreverse, ?_, ?_, ?_, ?_, ?_⟩
  · rw [lines, hreverse]
  · rw [hentries, List.head?_drop]
  · rw [hentries, List.getLast?_drop]
    by_cases hzero : capacity = 0
    · rw [if_pos hzero, if_pos (by omega)]
    · rw [if_neg hzero]
      by_cases hnil : added = []
      · simp [hnil]
      · have hpos := List.length_pos_of_ne_nil hnil
        rw [if_neg (by omega)]
  · rw [List.isEmpty_iff_length_eq_zero, hlength, ← List.length_eq_zero_iff]
    omega
  · rw [← hcapacity]
    exact h.entries_push_eq_makeRoom

end History

end DeskCalculator
