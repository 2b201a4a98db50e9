import DeskCalculator.Proofs.Session.Lines
import DeskCalculator.Proofs.Text.Trimming

/-!
# Failures keep what was there

A calculation that fails changes the last outcome and nothing else, so that the input can be corrected, and a
percentage that fails changes nothing. In a session a line with an error leaves the history and the memory
as they were: a command that fails leaves everything so, and an expression that fails is found in the input
as it was attempted (`Session.failures_keep_state`). So they stay through any number of failing lines
(`Session.executeAll_of_errors`). An expression always comes to an error or to a result, and the results shown
are the ones that are recorded.
-/

namespace DeskCalculator

/-! ## Calculators -/

namespace Calculator

variable {c : Calculator} {time : Nat} {e : CalcError}

theorem percentage_of_error (h : c.percentage.1 = .error e) : c.percentage.2 = c := by
  unfold percentage at h ⊢
  split at h
  next => rfl
  next => cases h

theorem calculate_of_error (h : (c.calculate time).1 = .error e) :
    (c.calculate time).2 = { c with result := some (.error e) } := by
  obtain ⟨-, hcalculate⟩ | ⟨e', -, -, hcalculate⟩ | ⟨x, -, -, hcalculate⟩ := c.calculate_cases time
  · rw [hcalculate] at h
    cases h
  · rw [hcalculate] at h ⊢
    obtain rfl : e' = e := Except.error.inj h
    rfl
  · rw [hcalculate] at h
    cases h

theorem calculate_of_none (h : (c.calculate time).1 = .ok none) : (c.calculate time).2 = c := by
  obtain ⟨-, hcalculate⟩ | ⟨e', -, -, hcalculate⟩ | ⟨x, -, -, hcalculate⟩ := c.calculate_cases time
  · rw [hcalculate]
  · rw [hcalculate] at h
    cases h
  · rw [hcalculate] at h
    cases h

theorem calculate_fst_of_ne (h : Text.trim c.input ≠ []) (time : Nat) :
    (c.calculate time).1 = (c.evaluator.evaluate c.input).map some := by
  obtain ⟨hblank, -⟩ | ⟨e, -, heval, hcalculate⟩ | ⟨x, -, heval, hcalculate⟩ := c.calculate_cases time
  · exact absurd hblank h
  · rw [hcalculate, heval]
    rfl
  · rw [hcalculate, heval]
    rfl

theorem history_run (c : Calculator) {actions : List Action} (h : .clearHistory ∉ actions) :
    (c.run actions).history = ((c.calls actions).filterMap Call.recorded?).foldl .push c.history := by
  induction actions generalizing c with
  | nil => rfl
  | cons a actions ih =>
    have hne : a ≠ .clearHistory := fun ha => h (ha ▸ List.mem_cons_self)
    have hstep := c.history_perform a
    rw [if_neg hne] at hstep
    have hrest := ih (c.perform a).2 fun hmem => h (List.mem_cons_of_mem a hmem)
    rw [calls, List.filterMap_cons]
    show ((c.perform a).2.run actions).history = _
    rw [hrest, hstep]
    cases (c.call a).recorded? with
    | none => rfl
    | some entry => rfl

end Calculator

/-! ## Lines -/

namespace Session

/-- A line that is neither blank nor a command. -/
def IsExpression (line : Text) : Prop := Text.trim line ≠ [] ∧ (Text.trim line).head? ≠ some ':'

/-- What an expression line has evaluated. One that starts with an operator which cannot be a sign goes on
with the input. -/
def attempted (s : Session) (line : Text) : Text :=
  if (Text.trim line).head? ∈ ['+', '*', '/', '×', '÷'].map some then
    s.calculator.input ++ Text.trim line
  else Text.trim line

/-- The results that a line has recorded, whether or not the history has room for them. -/
def pushes (s : Session) (time : Nat) (line : Text) : List Entry :=
  (s.calculator.calls (actions time line)).filterMap Call.recorded?

theorem continuesValue_iff (t : Text) :
    continuesValue t = true ↔ t.head? ∈ ['+', '*', '/', '×', '÷'].map some := by
  cases t with
  | nil => simp [continuesValue]
  | cons c t => simp [continuesValue, or_assoc]

theorem enter_eq (s : Session) (line : Text) :
    s.enter (Text.trim line) =
      { s with calculator := { s.calculator with input := s.attempted line } } := by
  unfold enter attempted
  by_cases h : continuesValue (Text.trim line) = true
  · rw [if_pos h, if_pos ((continuesValue_iff _).1 h)]
    rfl
  · rw [if_neg h, if_neg fun h' => h ((continuesValue_iff _).2 h')]
    rfl

variable {line : Text}

theorem trim_attempted_ne_nil (hline : IsExpression line) (s : Session) :
    Text.trim (s.attempted line) ≠ [] := by
  obtain ⟨c, t, htrim⟩ := List.exists_cons_of_ne_nil hline.1
  have hblank : Text.isBlank c = false := (Text.isTrimmed_trim line).head c (by simp [htrim])
  refine Text.trim_ne_nil (c := c) ?_ hblank
  unfold attempted
  split <;> simp [htrim]

/-- An expression line comes to an error, which is the last outcome then, or to a result, which is recorded. -/
theorem execute_expression (hline : IsExpression line) (s : Session) (time : Nat) :
    (∃ e, s.calculator.evaluator.evaluate (s.attempted line) = .error e ∧
      s.execute time line = (.error e.message, { s with
        calculator := { s.calculator with input := s.attempted line, result := some (.error e) } })) ∨
    ∃ x, s.calculator.evaluator.evaluate (s.attempted line) = .ok x ∧
      s.execute time line = (.output (s.printer.value x), { s with
        calculator := { s.calculator with
          input := x.plain
          result := some (.ok x)
          history := s.calculator.history.push ⟨s.attempted line, x, time⟩ } }) := by
  obtain ⟨hblank, -⟩ | ⟨hcolon, -⟩ | ⟨hcolon, -⟩ | ⟨-, -, hexecute⟩ := execute_cases line
  · exact absurd hblank hline.1
  · exact absurd hcolon hline.2
  · exact absurd hcolon hline.2
  · rw [hexecute, enter_eq, calculate]
    obtain ⟨hblank, -⟩ | ⟨e, -, heval, hcalculate⟩ | ⟨x, -, heval, hcalculate⟩ :=
      Calculator.calculate_cases { s.calculator with input := s.attempted line } time
    · exact absurd hblank (trim_attempted_ne_nil hline s)
    · rw [hcalculate]
      exact .inl ⟨e, heval, rfl⟩
    · rw [hcalculate]
      exact .inr ⟨x, heval, rfl⟩

/-- An expression line is two calls, of which the second one evaluates what the first one has entered. -/
theorem calls_expression (hline : IsExpression line) (s : Session) (time : Nat) :
    ∃ entering, entering.recorded? = none ∧ entering.action ≠ .calculate time ∧
      s.calculator.calls (actions time line) = [entering, ⟨.calculate time, s.attempted line,
        (s.calculator.evaluator.evaluate (s.attempted line)).map some⟩] := by
  have hentered := (s.calculator_enter (Text.trim line)).symm.trans (congrArg calculator (enter_eq s line))
  have hanswer := Calculator.calculate_fst_of_ne (c := { s.calculator with input := s.attempted line })
    (trim_attempted_ne_nil hline s) time
  rw [actions_of_expression hline.1 hline.2]
  generalize haction :
    (if continuesValue (Text.trim line) then Action.append (Text.trim line) else .setInput (Text.trim line)) =
      action at hentered
  -- Neither way of entering a line is a calculation, nor does it record anything.
  have hcases : action = .append (Text.trim line) ∨ action = .setInput (Text.trim line) := by
    rw [← haction]
    split
    next => exact .inl rfl
    next => exact .inr rfl
  refine ⟨s.calculator.call action, ?_, ?_, ?_⟩
  · rcases hcases with rfl | rfl <;> rfl
  · rcases hcases with rfl | rfl <;> exact nofun
  · show [_, (s.calculator.perform action).2.call (.calculate time)] = _
    rw [hentered, ← hanswer]
    rfl

theorem pushes_expression (hline : IsExpression line) (s : Session) (time : Nat) :
    s.pushes time line =
      match s.calculator.evaluator.evaluate (s.attempted line) with
      | .ok x => [⟨s.attempted line, x, time⟩]
      | .error _ => [] := by
  obtain ⟨entering, hnone, -, hcalls⟩ := calls_expression hline s time
  rw [pushes, hcalls, List.filterMap_cons_none hnone]
  cases s.calculator.evaluator.evaluate (s.attempted line) with
  | ok x => rfl
  | error e => rfl

theorem clearHistory_not_mem_actions (time : Nat) (line : Text) : .clearHistory ∉ actions time line := by
  unfold actions
  dsimp only
  split
  next => exact List.not_mem_nil
  next =>
    split
    next =>
      split
      next command _ => cases command <;> simp [Command.actions]
      next => exact List.not_mem_nil
    next => split <;> simp

theorem history_execute (s : Session) (time : Nat) (line : Text) :
    (s.execute time line).2.calculator.history =
      (s.pushes time line).foldl .push s.calculator.history := by
  rw [execute_snd]
  exact s.calculator.history_run (clearHistory_not_mem_actions time line)

theorem perform_of_error {s : Session} {command : Command} {message : Text}
    (h : (s.perform command).1 = .error message) : (s.perform command).2 = s := by
  cases command with
  | percent =>
    dsimp only [perform] at h ⊢
    split at h
    next => cases h
    next e c hpercentage =>
      have hkept : s.calculator.percentage.2 = s.calculator :=
        Calculator.percentage_of_error (congrArg Prod.fst hpercentage)
      rw [hpercentage] at hkept
      obtain rfl : c = s.calculator := hkept
      rfl
  | history json =>
    cases json with
    | true => cases h
    | false =>
      dsimp only [perform] at h
      split at h
      next => cases h
      next => cases h
  | _ => cases h

/-- What a line with an error changes: nothing after a colon, else the input and the last outcome. -/
theorem execute_of_error {s : Session} {time : Nat} {message : Text}
    (h : (s.execute time line).1 = .error message) :
    ((Text.trim line).head? = some ':' ∧ (s.execute time line).2 = s) ∨
    (Text.trim line).head? ≠ some ':' ∧ ∃ e : CalcError, e.message = message ∧
      s.calculator.evaluator.evaluate (s.attempted line) = .error e ∧
      (s.execute time line).2 = { s with
        calculator := { s.calculator with input := s.attempted line, result := some (.error e) } } := by
  obtain ⟨-, hexecute⟩ | ⟨hcolon, command, -, hexecute⟩ | ⟨hcolon, f, -, hexecute⟩ | ⟨hne, hcolon, -⟩ :=
    execute_cases line
  · rw [hexecute] at h
    cases h
  · rw [hexecute] at h ⊢
    exact .inl ⟨hcolon, perform_of_error h⟩
  · rw [hexecute]
    exact .inl ⟨hcolon, rfl⟩
  · refine .inr ⟨hcolon, ?_⟩
    obtain ⟨e, heval, hexecute⟩ | ⟨x, -, hexecute⟩ := execute_expression ⟨hne, hcolon⟩ s time
    · rw [hexecute] at h ⊢
      exact ⟨e, Reply.error.inj h, heval, rfl⟩
    · rw [hexecute] at h
      cases h

theorem history_and_memory_of_error {s : Session} {time : Nat} {message : Text}
    (h : (s.execute time line).1 = .error message) :
    (s.execute time line).2.calculator.history = s.calculator.history ∧
      (s.execute time line).2.calculator.memory = s.calculator.memory := by
  obtain ⟨-, hkept⟩ | ⟨-, e, -, -, hkept⟩ := execute_of_error h
  · rw [hkept]
    exact ⟨rfl, rfl⟩
  · rw [hkept]
    exact ⟨rfl, rfl⟩

/-- However many lines fail one after the other, the history and the memory stay. -/
theorem executeAll_of_errors (s : Session) (clock : Nat → Nat) (lines : List Text)
    (h : ∀ reply ∈ (s.executeAll clock lines).1, ∃ message, reply = .error message) :
    (s.executeAll clock lines).2.calculator.history = s.calculator.history ∧
      (s.executeAll clock lines).2.calculator.memory = s.calculator.memory := by
  induction lines generalizing s clock with
  | nil => exact ⟨rfl, rfl⟩
  | cons line lines ih =>
    rw [executeAll_cons] at h ⊢
    obtain ⟨message, hline⟩ := h _ List.mem_cons_self
    obtain ⟨hhistory, hmemory⟩ := history_and_memory_of_error hline
    rw [← hhistory, ← hmemory]
    exact ih _ _ fun reply hreply => h reply (List.mem_cons_of_mem _ hreply)

/-- **Failures keep what was there.** A percentage that fails changes nothing, a calculation that fails only the
last outcome, and one of a blank input nothing. A line with an error keeps the history and the memory, a command
with an error everything; an expression with an error is the input then, and the error the last outcome. There is
always something to calculate on an expression line, so that it shows a result exactly when it has recorded one,
and that result it shows. -/
theorem failures_keep_state :
    (∀ (c : Calculator) (e : CalcError), c.percentage.1 = .error e → c.percentage.2 = c) ∧
    (∀ (c : Calculator) (time : Nat) (e : CalcError), (c.calculate time).1 = .error e →
      (c.calculate time).2 = { c with result := some (.error e) }) ∧
    (∀ (c : Calculator) (time : Nat), (c.calculate time).1 = .ok none → (c.calculate time).2 = c) ∧
    ∀ (s : Session) (time : Nat) (line : Text),
      (∀ message, (s.execute time line).1 = .error message →
        (s.execute time line).2.calculator.history = s.calculator.history ∧
        (s.execute time line).2.calculator.memory = s.calculator.memory ∧
        ((Text.trim line).head? = some ':' → (s.execute time line).2 = s) ∧
        ((Text.trim line).head? ≠ some ':' → ∃ e : CalcError, e.message = message ∧
          s.calculator.evaluator.evaluate (s.attempted line) = .error e ∧
          (s.execute time line).2 = { s with
            calculator := { s.calculator with input := s.attempted line, result := some (.error e) } })) ∧
      (IsExpression line →
        (∀ call ∈ s.calculator.calls (actions time line), call.action = .calculate time →
          call.answer ≠ .ok none) ∧
        (s.execute time line).2.calculator.history =
          (s.pushes time line).foldl .push s.calculator.history ∧
        ((∃ t, (s.execute time line).1 = .output t) ↔ (s.pushes time line).length = 1) ∧
        ∀ entry ∈ s.pushes time line, entry.expression = s.attempted line ∧ entry.time = time ∧
          (s.execute time line).1 = .output (s.printer.value entry.result)) := by
  refine ⟨fun c e => Calculator.percentage_of_error, fun c time e => Calculator.calculate_of_error,
    fun c time => Calculator.calculate_of_none, fun s time line => ⟨fun message herror => ?_, fun hline => ?_⟩⟩
  · obtain ⟨hhistory, hmemory⟩ := history_and_memory_of_error herror
    refine ⟨hhistory, hmemory, ?_⟩
    obtain ⟨hcolon, hkept⟩ | ⟨hcolon, hfailed⟩ := execute_of_error herror
    · exact ⟨fun _ => hkept, fun hne => absurd hcolon hne⟩
    · exact ⟨fun h => absurd h hcolon, fun _ => hfailed⟩
  · refine ⟨fun call hcall haction => ?_, s.history_execute time line, ?_⟩
    · obtain ⟨entering, -, hentering, hcalls⟩ := calls_expression hline s time
      rw [hcalls] at hcall
      rcases List.mem_cons.1 hcall with rfl | hcall
      · exact absurd haction hentering
      · rw [List.mem_singleton.1 hcall]
        cases s.calculator.evaluator.evaluate (s.attempted line) <;> exact nofun
    · obtain ⟨e, heval, hexecute⟩ | ⟨x, heval, hexecute⟩ := execute_expression hline s time
      · rw [hexecute, pushes_expression hline, heval]
        refine ⟨⟨fun houtput => ?_, nofun⟩, nofun⟩
        obtain ⟨t, houtput⟩ := houtput
        cases houtput
      · rw [hexecute, pushes_expression hline, heval]
        refine ⟨⟨fun _ => rfl, fun _ => ⟨_, rfl⟩⟩, fun entry hentry => ?_⟩
        obtain rfl := List.mem_singleton.1 hentry
        exact ⟨rfl, rfl, rfl⟩

/-- A quotient by zero behind a value that is also in the memory, and a percentage of what it leaves. -/
theorem failures_keep_state_division :
    let s := ((Session.new .standard ⟨false⟩).executeAll id ["7".toList, ":m+".toList]).2
    let s' := (s.execute 2 " /0".toList).2
    (s.execute 2 " /0".toList).1 = .error "Division by zero".toList ∧
      s'.calculator.input = "7/0".toList ∧
      s'.calculator.history = s.calculator.history ∧ s'.calculator.memory = s.calculator.memory ∧
      (s'.execute 3 ":%".toList).1 = .error "Division by zero".toList ∧ (s'.execute 3 ":%".toList).2 = s' := by
  intro s s'
  have hfailed : (s.execute 2 " /0".toList).1 = .error "Division by zero".toList := by decide +kernel
  have hfailed' : (s'.execute 3 ":%".toList).1 = .error "Division by zero".toList := by decide +kernel
  have hattempted : s.attempted " /0".toList = "7/0".toList := by decide +kernel
  have hcolon : (Text.trim " /0".toList).head? ≠ some ':' ∧ (Text.trim ":%".toList).head? = some ':' := by
    decide +kernel
  clear_value s
  obtain ⟨hhistory, hmemory, -, hexpression⟩ := (failures_keep_state.2.2.2 s 2 " /0".toList).1 _ hfailed
  obtain ⟨-, -, hcommand, -⟩ := (failures_keep_state.2.2.2 s' 3 ":%".toList).1 _ hfailed'
  obtain ⟨e, -, -, hkept⟩ := hexpression hcolon.1
  have hinput : s'.calculator.input = s.attempted " /0".toList := congrArg (·.calculator.input) hkept
  exact ⟨hfailed, hinput.trans hattempted, hhistory, hmemory, hfailed', hcommand hcolon.2⟩

end Session

end DeskCalculator
