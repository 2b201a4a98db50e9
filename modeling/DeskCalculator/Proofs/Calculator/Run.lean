import DeskCalculator.Calculator
import Mathlib.Data.List.DropRight

/-!
# Runs of a calculator

Whatever happens to a calculator is a run of actions (`Action`), each of which has an answer. A run
is retold by its calls: each action with the input that it found and the answer that it gave
(`Calculator.calls`). What the calculator stores is to be read off the calls.

The calculator has three stores besides the input: the result, the history and the memory. Each has
an action that empties it, and the other actions either leave it alone or add one item to it, which
the call shows (`Calculator.exists_perform_eq`). So a store holds what was added since it was emptied
last (`Calculator.run_eq_foldl`).
-/

namespace DeskCalculator

/-- What can be done with a calculator. -/
inductive Action where
  | setInput (t : Text)
  | append (t : Text)
  | clear
  | backspace
  | toggleSign
  | percentage
  | calculate (time : Nat)
  | memoryAdd
  | memorySubtract
  | memoryRecall
  | memoryClear
  | clearHistory
  deriving DecidableEq

/-- An action that was performed. -/
structure Call where
  action : Action
  /-- The input that the action found. -/
  input : Text
  /-- The answer, if the action has one. -/
  answer : Outcome (Option Binary64)

namespace Call

/-- What an evaluator makes of the input of a call that calculates it; on a blank input there is no
calculation. -/
def outcome? (ev : Evaluator) (call : Call) : Option (Outcome Binary64) :=
  match call.action with
  | .calculate _ => if Text.trim call.input = [] then none else some (ev.evaluate call.input)
  | _ => none

/-- The calculation that came to a value in a call, if there is one. -/
def recorded? (call : Call) : Option Entry :=
  match call.action, call.answer with
  | .calculate time, .ok (some x) => some ⟨call.input, x, time⟩
  | _, _ => none

/-- The number that the input of a call is, if it is a literal with a finite value. -/
def number? (call : Call) : Option Binary64 :=
  match literal? (Text.trim call.input) with
  | .ok x => x
  | .error _ => none

/-- What a call adds to the memory. -/
def addend? (call : Call) : Option Binary64 :=
  match call.action with
  | .memoryAdd => call.number?
  | .memorySubtract => call.number?.map Binary64.neg
  | _ => none

end Call

/-- The calls behind the last one of an action. -/
def since (a : Action) (calls : List Call) : List Call := calls.rtakeWhile (·.action ≠ a)

namespace Calculator

/-- The answer to an action, if it has one, and the calculator behind it. -/
def perform (c : Calculator) : Action → Outcome (Option Binary64) × Calculator
  | .setInput t => (.ok none, c.setInput t)
  | .append t => (.ok none, c.append t)
  | .clear => (.ok none, c.clear)
  | .backspace => (.ok none, c.backspace)
  | .toggleSign => (.ok none, c.toggleSign)
  | .percentage => (c.percentage.1.map some, c.percentage.2)
  | .calculate time => c.calculate time
  | .memoryAdd => (.ok none, c.memoryAdd)
  | .memorySubtract => (.ok none, c.memorySubtract)
  | .memoryRecall => (.ok none, c.memoryRecall)
  | .memoryClear => (.ok none, c.memoryClear)
  | .clearHistory => (.ok none, c.clearHistory)

/-- The calculator behind several actions. -/
def run (c : Calculator) (actions : List Action) : Calculator :=
  actions.foldl (fun c a => (c.perform a).2) c

/-- The call of an action. -/
def call (c : Calculator) (a : Action) : Call := ⟨a, c.input, (c.perform a).1⟩

/-- The calls of several actions, in order. -/
def calls (c : Calculator) : List Action → List Call
  | [] => []
  | a :: actions => c.call a :: (c.perform a).2.calls actions

theorem run_concat (c : Calculator) (actions : List Action) (a : Action) :
    c.run (actions ++ [a]) = ((c.run actions).perform a).2 := by
  rw [run, List.foldl_append]
  rfl

theorem calls_concat (c : Calculator) (actions : List Action) (a : Action) :
    c.calls (actions ++ [a]) = c.calls actions ++ [(c.run actions).call a] := by
  induction actions generalizing c with
  | nil => rfl
  | cons b actions ih => exact congrArg (c.call b :: ·) (ih (c.perform b).2)

theorem exists_call_of_mem_calls {c : Calculator} {actions : List Action} {called : Call}
    (h : called ∈ c.calls actions) : ∃ before a, called = (c.run before).call a := by
  induction actions generalizing c with
  | nil => cases h
  | cons a actions ih =>
    rcases List.mem_cons.1 h with rfl | h
    · exact ⟨[], a, rfl⟩
    · obtain ⟨before, b, hcalled⟩ := ih h
      exact ⟨a :: before, b, hcalled⟩

/-! ## What an action can do -/

/-- A calculation finds nothing to do, or an error, or a value, which it records. -/
theorem calculate_cases (c : Calculator) (time : Nat) :
    (Text.trim c.input = [] ∧ c.calculate time = (.ok none, c)) ∨
      (∃ e, Text.trim c.input ≠ [] ∧ c.evaluator.evaluate c.input = .error e ∧
        c.calculate time = (.error e, { c with result := some (.error e) })) ∨
      ∃ x, Text.trim c.input ≠ [] ∧ c.evaluator.evaluate c.input = .ok x ∧
        c.calculate time = (.ok (some x),
          { c with
            input := x.plain
            result := some (.ok x)
            history := c.history.push ⟨c.input, x, time⟩ }) := by
  unfold calculate
  split
  next hblank => exact .inl ⟨hblank, rfl⟩
  next hinput =>
    split
    next e he => exact .inr (.inl ⟨e, hinput, he, rfl⟩)
    next x hx => exact .inr (.inr ⟨x, hinput, hx, rfl⟩)

theorem answer_calculate (c : Calculator) (time : Nat) :
    (c.call (.calculate time)).answer =
      if Text.trim c.input = [] then .ok none else (c.evaluator.evaluate c.input).map some := by
  rw [call, perform]
  obtain ⟨hblank, h⟩ | ⟨e, hinput, he, h⟩ | ⟨x, hinput, hx, h⟩ := c.calculate_cases time
  · rw [h, if_pos hblank]
  · rw [h, if_neg hinput, he]
    rfl
  · rw [h, if_neg hinput, hx]
    rfl

/-- What an action does: its call shows what becomes of the stores. -/
theorem exists_perform_eq (c : Calculator) (a : Action) :
    ∃ t, (c.perform a).2 =
      { c with
        input := t
        result := if a = .clear then none else ((c.call a).outcome? c.evaluator).elim c.result some
        history :=
          if a = .clearHistory then c.history.clear
          else (c.call a).recorded?.elim c.history c.history.push
        memory :=
          if a = .memoryClear then .zero
          else (c.call a).addend?.elim c.memory c.memory.add } := by
  cases a with
  | percentage =>
    rw [perform, percentage]
    split
    next => exact ⟨c.input, rfl⟩
    next x _ => exact ⟨(x.div hundred).plain, rfl⟩
  | toggleSign =>
    rw [perform, toggleSign]
    split
    next => exact ⟨c.input, rfl⟩
    next t _ => exact ⟨t, rfl⟩
    next => exact ⟨'-' :: c.input, rfl⟩
  | memoryAdd =>
    have hnumber : (c.call .memoryAdd).addend? = c.inputNumber? := rfl
    rw [hnumber, perform, memoryAdd]
    cases c.inputNumber? with
    | none => exact ⟨c.input, rfl⟩
    | some x => exact ⟨c.input, rfl⟩
  | memorySubtract =>
    have hnumber : (c.call .memorySubtract).addend? = c.inputNumber?.map Binary64.neg := rfl
    rw [hnumber, perform, memorySubtract]
    cases c.inputNumber? with
    | none => exact ⟨c.input, rfl⟩
    | some x => exact ⟨c.input, rfl⟩
  | calculate time =>
    rw [call, perform, Call.outcome?]
    obtain ⟨hblank, h⟩ | ⟨e, hinput, he, h⟩ | ⟨x, hinput, hx, h⟩ := c.calculate_cases time
    · rw [h, if_pos hblank]
      exact ⟨c.input, rfl⟩
    · rw [h, if_neg hinput, he]
      exact ⟨c.input, rfl⟩
    · rw [h, if_neg hinput, hx]
      exact ⟨x.plain, rfl⟩
  | setInput t => exact ⟨t, rfl⟩
  | append t => exact ⟨c.input ++ t, rfl⟩
  | clear => exact ⟨[], rfl⟩
  | backspace => exact ⟨c.input.dropLast, rfl⟩
  | memoryRecall => exact ⟨c.memory.plain, rfl⟩
  | memoryClear => exact ⟨c.input, rfl⟩
  | clearHistory => exact ⟨c.input, rfl⟩

theorem evaluator_perform (c : Calculator) (a : Action) :
    (c.perform a).2.evaluator = c.evaluator := by
  obtain ⟨t, h⟩ := c.exists_perform_eq a
  rw [h]

theorem result_perform (c : Calculator) (a : Action) :
    (c.perform a).2.result =
      if a = .clear then none else ((c.call a).outcome? c.evaluator).elim c.result some := by
  obtain ⟨t, h⟩ := c.exists_perform_eq a
  rw [h]

theorem history_perform (c : Calculator) (a : Action) :
    (c.perform a).2.history =
      if a = .clearHistory then c.history.clear
      else (c.call a).recorded?.elim c.history c.history.push := by
  obtain ⟨t, h⟩ := c.exists_perform_eq a
  rw [h]

theorem memory_perform (c : Calculator) (a : Action) :
    (c.perform a).2.memory =
      if a = .memoryClear then .zero else (c.call a).addend?.elim c.memory c.memory.add := by
  obtain ⟨t, h⟩ := c.exists_perform_eq a
  rw [h]

theorem evaluator_run (c : Calculator) (actions : List Action) :
    (c.run actions).evaluator = c.evaluator := by
  induction actions generalizing c with
  | nil => rfl
  | cons a actions ih => exact (ih (c.perform a).2).trans (c.evaluator_perform a)

/-! ## What a store holds -/

/-- A store that one action empties, and to which each other action adds at most one item, holds the
items that the calls since it was emptied last have added. -/
theorem run_eq_foldl {σ β : Type} (store : Calculator → σ) {reset : Action} {item? : Call → Option β}
    {add : σ → β → σ} {empty : σ} (start : Calculator) (hstart : store start = empty)
    (hstep : ∀ before a, store ((start.run before).perform a).2 =
      if a = reset then empty
      else (item? ((start.run before).call a)).elim (store (start.run before))
        (add (store (start.run before))))
    (actions : List Action) :
    store (start.run actions) =
      ((since reset (start.calls actions)).filterMap item?).foldl add empty := by
  -- The induction is from the end of the run, as the calls since the last reset are a suffix of it.
  induction actions using List.reverseRecOn with
  | nil => exact hstart
  | append_singleton before a ih =>
    rw [run_concat, hstep, calls_concat, since, List.rtakeWhile_concat]
    by_cases hreset : a = reset
    · simp [hreset, call]
    · have haction : ((start.run before).call a).action ≠ reset := hreset
      rw [if_neg hreset, if_pos (by simpa using haction), ← since, List.filterMap_append,
        List.foldl_append, ← ih]
      cases hitem : item? ((start.run before).call a) with
      | none => simp [hitem]
      | some x => simp [hitem]

end Calculator

end DeskCalculator
