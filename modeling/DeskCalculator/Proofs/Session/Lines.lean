import DeskCalculator.Proofs.Calculator.Run
import DeskCalculator.Session.Basic

/-!
# Lines of a session

A line is blank, a command, no command in spite of its colon, or an expression, which is entered and
calculated (`Session.execute_cases`). Either way what it does to the calculator is a run of actions which
the line alone settles (`Session.execute_snd`), so that what holds of every run of a calculator holds of
every session.
-/

namespace DeskCalculator

/-- What a command does to the calculator. -/
def Command.actions : Command → List Action
  | .memoryAdd => [.memoryAdd]
  | .memorySubtract => [.memorySubtract]
  | .memoryRecall => [.memoryRecall]
  | .memoryClear => [.memoryClear]
  | .negate => [.toggleSign]
  | .percent => [.percentage]
  | .backspace => [.backspace]
  | .clear => [.clear]
  | .history _ | .help | .quit => []

namespace Session

/-- The session with a line in its input. -/
def enter (s : Session) (line : Text) : Session :=
  { s with
    calculator :=
      if continuesValue line then s.calculator.append line else s.calculator.setInput line }

theorem execute_cases (line : Text) :
    (Text.trim line = [] ∧ ∀ s time, execute s time line = (.silent, s)) ∨
      ((Text.trim line).head? = some ':' ∧ ∃ command, Command.ofText (Text.trim line) = .ok command ∧
        ∀ s time, execute s time line = s.perform command) ∨
      ((Text.trim line).head? = some ':' ∧ ∃ f, Command.ofText (Text.trim line) = .error f ∧
        ∀ s time, execute s time line = (.error f.message, s)) ∨
      Text.trim line ≠ [] ∧ (Text.trim line).head? ≠ some ':' ∧
        ∀ s time, execute s time line = (s.enter (Text.trim line)).calculate time := by
  unfold execute
  generalize Text.trim line = line
  match line with
  | [] => exact .inl ⟨rfl, fun _ _ => rfl⟩
  | c :: t =>
    by_cases hc : c = ':'
    · subst hc
      cases h : Command.ofText (':' :: t) with
      | ok command => exact .inr (.inl ⟨rfl, command, rfl, fun s time => by simp only [h]⟩)
      | error f => exact .inr (.inr (.inl ⟨rfl, f, rfl, fun s time => by simp only [h]⟩))
    · refine .inr (.inr (.inr ⟨List.cons_ne_nil c t, fun h => hc (Option.some.inj h), fun s time => ?_⟩))
      dsimp only
      split
      next hcolon => cases hcolon
      next hcolon => exact absurd (List.cons.inj hcolon).1 hc
      next => rfl

/-! ## The actions of a line -/

/-- What a line does to the calculator. -/
def actions (time : Nat) (line : Text) : List Action :=
  let line := Text.trim line
  if line = [] then []
  else if line.head? = some ':' then
    match Command.ofText line with
    | .ok command => command.actions
    | .error _ => []
  else [if continuesValue line then .append line else .setInput line, .calculate time]

theorem actions_of_expression {line : Text} (hne : Text.trim line ≠ [])
    (hcolon : (Text.trim line).head? ≠ some ':') (time : Nat) :
    actions time line =
      [if continuesValue (Text.trim line) then .append (Text.trim line) else .setInput (Text.trim line),
        .calculate time] := by
  rw [actions, if_neg hne, if_neg hcolon]

theorem calculator_enter (s : Session) (line : Text) :
    (s.enter line).calculator =
      (s.calculator.perform (if continuesValue line then .append line else .setInput line)).2 := by
  unfold enter
  dsimp only
  split <;> rfl

theorem calculate_snd (s : Session) (time : Nat) :
    (s.calculate time).2 = { s with calculator := (s.calculator.calculate time).2 } := by
  unfold calculate
  split
  next h => rw [h]
  next h => rw [h]; rfl
  next h => rw [h]

theorem perform_snd (s : Session) (command : Command) :
    (s.perform command).2 = { s with calculator := s.calculator.run command.actions } := by
  cases command with
  | percent =>
    show _ = { s with calculator := s.calculator.percentage.2 }
    dsimp only [perform]
    split
    next h => rw [h]; rfl
    next h => rw [h]
  | history json =>
    cases json with
    | true => rfl
    | false =>
      dsimp only [perform]
      split <;> rfl
  | _ => rfl

/-- The session behind a line: only its calculator can differ, and that by the actions of the line. -/
theorem execute_snd (s : Session) (time : Nat) (line : Text) :
    (s.execute time line).2 = { s with calculator := s.calculator.run (actions time line) } := by
  obtain ⟨hblank, hexecute⟩ | ⟨hcolon, command, hcommand, hexecute⟩ | ⟨hcolon, f, hcommand, hexecute⟩ |
    ⟨hne, hcolon, hexecute⟩ := execute_cases line
  · rw [hexecute, actions, if_pos hblank]
    rfl
  · have hne : Text.trim line ≠ [] := fun h => by simp [h] at hcolon
    rw [hexecute, actions, if_neg hne, if_pos hcolon, hcommand, perform_snd]
  · have hne : Text.trim line ≠ [] := fun h => by simp [h] at hcolon
    rw [hexecute, actions, if_neg hne, if_pos hcolon, hcommand]
    rfl
  · rw [hexecute, actions_of_expression hne hcolon, calculate_snd, calculator_enter]
    rfl

/-! ## Several lines -/

/-- Takes lines one after the other: the replies and the session behind them. The clock tells the time
of each line. -/
def executeAll (s : Session) (clock : Nat → Nat) : List Text → List Reply × Session
  | [] => ([], s)
  | line :: lines =>
    let (reply, next) := s.execute (clock 0) line
    let (replies, last) := next.executeAll (fun n => clock (n + 1)) lines
    (reply :: replies, last)

theorem executeAll_cons (s : Session) (clock : Nat → Nat) (line : Text) (lines : List Text) :
    s.executeAll clock (line :: lines) =
      ((s.execute (clock 0) line).1 ::
          ((s.execute (clock 0) line).2.executeAll (fun n => clock (n + 1)) lines).1,
        ((s.execute (clock 0) line).2.executeAll (fun n => clock (n + 1)) lines).2) := rfl

end Session

end DeskCalculator
