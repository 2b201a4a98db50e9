import DeskCalculator.Proofs.Calculator.Run
import DeskCalculator.Proofs.Evaluator.Finiteness
import DeskCalculator.Proofs.History.Window

/-!
# The record of a calculator

What a calculator shows of its past is true (`Calculator.record_of_run`). Its history holds the last
calculations that came to a value, as many as there is room for, each with the expression as it was
written; evaluating the expression again gives the value, which is finite. Its result is what the
last calculation came to.

A calculation replaces the input by its value, so that the expression is not that of the calculator
behind it; the calls keep it.
-/

namespace DeskCalculator

theorem getLast?_eq_foldl {α : Type} (l : List α) :
    l.foldl (fun _ x => some x) none = l.getLast? := by
  induction l using List.reverseRecOn with
  | nil => rfl
  | append_singleton l x _ =>
    rw [List.foldl_append, List.getLast?_concat]
    rfl

namespace Calculator

/-! ## Runs -/

theorem capacity_run (c : Calculator) (actions : List Action) :
    (c.run actions).history.capacity = c.history.capacity := by
  induction actions generalizing c with
  | nil => rfl
  | cons a actions ih =>
    refine (ih (c.perform a).2).trans ?_
    rw [history_perform]
    split
    next => exact History.capacity_clear _
    next =>
      cases (c.call a).recorded? with
      | none => rfl
      | some e => exact History.capacity_push _ e

theorem evaluate_of_recorded? {c : Calculator} {a : Action} {e : Entry}
    (h : (c.call a).recorded? = some e) : c.evaluator.evaluate e.expression = .ok e.result := by
  cases a with
  | calculate time =>
    rw [call, perform] at h
    obtain ⟨-, hcalculate⟩ | ⟨_, -, -, hcalculate⟩ | ⟨x, -, hx, hcalculate⟩ :=
      c.calculate_cases time
    · rw [hcalculate] at h
      cases h
    · rw [hcalculate] at h
      cases h
    · rw [hcalculate] at h
      obtain rfl := Option.some.inj h
      exact hx
  | _ => cases h

section

variable (ev : Evaluator) (capacity : Nat) (actions : List Action)

theorem entries_run :
    ((new ev capacity).run actions).history.entries =
      ((since .clearHistory ((new ev capacity).calls actions)).filterMap
        Call.recorded?).rtake capacity := by
  have hcapacity (before : List Action) : ((new ev capacity).run before).history.capacity = capacity :=
    (new ev capacity).capacity_run before
  have hnew : (new ev capacity).history = .empty capacity := rfl
  rw [run_eq_foldl history (new ev capacity) hnew
    (fun before a => by rw [history_perform, History.clear, hcapacity]) actions]
  exact History.entries_foldl_push capacity _

theorem result_run :
    ((new ev capacity).run actions).result =
      ((since .clear ((new ev capacity).calls actions)).filterMap (Call.outcome? ev)).getLast? := by
  have hevaluator (before : List Action) : ((new ev capacity).run before).evaluator = ev :=
    (new ev capacity).evaluator_run before
  rw [← getLast?_eq_foldl]
  refine run_eq_foldl result (new ev capacity) rfl (fun before a => ?_) actions
  rw [result_perform, hevaluator]
  rfl

theorem answer_of_mem_calls {called : Call} (hmem : called ∈ (new ev capacity).calls actions)
    {time : Nat} (haction : called.action = .calculate time) :
    called.answer =
      if Text.trim called.input = [] then .ok none else (ev.evaluate called.input).map some := by
  obtain ⟨before, a, rfl⟩ := exists_call_of_mem_calls hmem
  obtain rfl : a = .calculate time := haction
  rw [answer_calculate, evaluator_run]
  rfl

theorem evaluate_of_mem_entries {e : Entry}
    (he : e ∈ ((new ev capacity).run actions).history.entries) :
    ev.evaluate e.expression = .ok e.result := by
  rw [entries_run, List.rtake] at he
  obtain ⟨called, hcalled, hrecorded⟩ := List.mem_filterMap.1 (List.mem_of_mem_drop he)
  have hmem : called ∈ (new ev capacity).calls actions := (List.rtakeWhile_suffix _ _).mem hcalled
  obtain ⟨before, a, rfl⟩ := exists_call_of_mem_calls hmem
  have hvalue := evaluate_of_recorded? hrecorded
  rwa [evaluator_run] at hvalue

end

/-- **The record is true.** In any run of a new calculator, the answer to a calculation is what its
evaluator makes of the input, unless that is blank. Behind the run, the history holds the last
calculations since it was cleared that came to a value, as many as there is room for and in order, each
with the input that was calculated; to evaluate an expression of it again gives its value, which is
finite. The result is the outcome of the last input that was calculated and is not blank since the
calculator was cleared, if there was one. -/
theorem record_of_run (ev : Evaluator) (capacity : Nat) (actions : List Action) :
    let c := (Calculator.new ev capacity).run actions
    let calls := (Calculator.new ev capacity).calls actions
    (∀ call ∈ calls, ∀ time, call.action = .calculate time →
        call.answer =
          if Text.trim call.input = [] then .ok none else (ev.evaluate call.input).map some) ∧
      c.evaluator = ev ∧
      c.history.entries =
        ((since .clearHistory calls).filterMap Call.recorded?).rtake capacity ∧
      (∀ e ∈ c.history.entries, ev.evaluate e.expression = .ok e.result ∧
        e.result.isFinite = true) ∧
      c.result = ((since .clear calls).filterMap (Call.outcome? ev)).getLast? := by
  intro c calls
  have hevaluator : c.evaluator = ev := (new ev capacity).evaluator_run actions
  refine ⟨fun call hmem time haction => answer_of_mem_calls ev capacity actions hmem haction, hevaluator,
    entries_run ev capacity actions, fun e he => ?_, result_run ev capacity actions⟩
  have hvalue := evaluate_of_mem_entries ev capacity actions he
  exact ⟨hvalue, (yields_evaluate ev e.expression).value _ hvalue⟩

end Calculator

end DeskCalculator
