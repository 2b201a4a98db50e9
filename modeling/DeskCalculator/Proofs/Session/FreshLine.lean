import DeskCalculator.Proofs.Session.Lines
import DeskCalculator.Proofs.Text.Trimming

/-!
# A fresh line forgets the past

A line that is no command and does not go on with the value that is there starts afresh: it replaces
the input, and its calculation the result. From there on two sessions of the same settings cannot be
told apart by their answers, whatever came before, as long as no command touches the memory or shows
the history (`Session.fresh_line_forgets`); these two are all that is kept of the past.

The sessions run in lockstep. They agree on the evaluator, the input and the result
(`Calculator.Agrees`), each line gets the same answer on both sides and keeps them in agreement
(`Session.Agrees.execute`), and the fresh line makes them agree.
-/

namespace DeskCalculator

/-! ## Calculators in agreement -/

namespace Calculator

/-- Two calculators of the same evaluator differ at most in the memory and the history. -/
structure Agrees (c c' : Calculator) : Prop where
  evaluator : c.evaluator = c'.evaluator
  input : c.input = c'.input
  result : c.result = c'.result

/-- A calculation depends on the evaluator and the input; if there is nothing to calculate, the result
is kept. -/
theorem calculate_agrees {c c' : Calculator} (hevaluator : c.evaluator = c'.evaluator)
    (hinput : c.input = c'.input) (hresult : Text.trim c.input = [] → c.result = c'.result)
    (time time' : Nat) :
    (c.calculate time).1 = (c'.calculate time').1 ∧
      Agrees (c.calculate time).2 (c'.calculate time').2 := by
  unfold calculate
  rw [← hinput, ← hevaluator]
  split
  next hblank => exact ⟨rfl, hevaluator, hinput, hresult hblank⟩
  next =>
    cases c.evaluator.evaluate c.input with
    | error e => exact ⟨rfl, rfl, rfl, rfl⟩
    | ok x => exact ⟨rfl, rfl, rfl, rfl⟩

namespace Agrees

variable {c c' : Calculator} (h : Agrees c c')

include h

theorem setInput (t : Text) : Agrees (c.setInput t) (c'.setInput t) := ⟨h.evaluator, rfl, h.result⟩

theorem append (t : Text) : Agrees (c.append t) (c'.append t) :=
  ⟨h.evaluator, congrArg (· ++ t) h.input, h.result⟩

theorem clear : Agrees c.clear c'.clear := ⟨h.evaluator, rfl, rfl⟩

theorem backspace : Agrees c.backspace c'.backspace :=
  ⟨h.evaluator, congrArg List.dropLast h.input, h.result⟩

theorem toggleSign : Agrees c.toggleSign c'.toggleSign := by
  unfold Calculator.toggleSign
  rw [← h.input]
  split
  next => exact h
  next t _ => exact ⟨h.evaluator, rfl, h.result⟩
  next => exact ⟨h.evaluator, rfl, h.result⟩

theorem percentage :
    c.percentage.1 = c'.percentage.1 ∧ Agrees c.percentage.2 c'.percentage.2 := by
  unfold Calculator.percentage
  rw [← h.input, ← h.evaluator]
  split
  next => exact ⟨rfl, h⟩
  next x _ => exact ⟨rfl, rfl, rfl, h.result⟩

theorem display : c.display = c'.display := by
  rw [Calculator.display, Calculator.display, h.input]

theorem resultDisplay : c.resultDisplay = c'.resultDisplay := by
  rw [Calculator.resultDisplay, Calculator.resultDisplay, h.result]

end Agrees

end Calculator

/-! ## Lines -/

/-- Whether a command touches the memory or shows the history. -/
def Command.usesPast : Command → Bool
  | .memoryAdd | .memorySubtract | .memoryRecall | .memoryClear | .history _ => true
  | .negate | .percent | .backspace | .clear | .help | .quit => false

namespace Session

/-- Whether a line is a command that touches the memory or shows the history. -/
def usesPast (line : Text) : Bool :=
  match Command.ofText (Text.trim line) with
  | .ok command => command.usesPast
  | .error _ => false

/-- A line is not blank, no command, and does not go on with the value that is there. -/
def StartsAfresh (line : Text) : Prop :=
  ∃ c t, Text.trim line = c :: t ∧ c ∉ [':', '+', '*', '/', '×', '÷']

/-! ## Sessions in agreement -/

/-- Two sessions differ at most in their memory and history. -/
structure Agrees (s s' : Session) : Prop where
  printer : s.printer = s'.printer
  calculator : s.calculator.Agrees s'.calculator

/-- What two sessions come to over a line or several ones: the same replies, and agreement. -/
def Lockstep {α : Type} (a a' : α × Session) : Prop := a.1 = a'.1 ∧ a.2.Agrees a'.2

theorem executeAll_cons_lockstep {s s' : Session} {clock clock' : Nat → Nat} {line : Text}
    {lines : List Text} (hline : Lockstep (s.execute (clock 0) line) (s'.execute (clock' 0) line))
    (hlines : Lockstep ((s.execute (clock 0) line).2.executeAll (fun n => clock (n + 1)) lines)
      ((s'.execute (clock' 0) line).2.executeAll (fun n => clock' (n + 1)) lines)) :
    Lockstep (s.executeAll clock (line :: lines)) (s'.executeAll clock' (line :: lines)) := by
  rw [executeAll_cons, executeAll_cons, hline.1, hlines.1]
  exact ⟨rfl, hlines.2⟩

theorem calculate_lockstep {s s' : Session} {time time' : Nat} (hprinter : s.printer = s'.printer)
    (hanswer : (s.calculator.calculate time).1 = (s'.calculator.calculate time').1)
    (hbehind : (s.calculator.calculate time).2.Agrees (s'.calculator.calculate time').2) :
    Lockstep (s.calculate time) (s'.calculate time') := by
  unfold calculate
  generalize s.calculator.calculate time = answered at hanswer hbehind
  generalize s'.calculator.calculate time' = answered' at hanswer hbehind
  obtain ⟨answer, c⟩ := answered
  obtain ⟨_, c'⟩ := answered'
  obtain rfl : answer = _ := hanswer
  match answer with
  | .error e => exact ⟨rfl, hprinter, hbehind⟩
  | .ok none => exact ⟨congrArg Reply.output hbehind.display, hprinter, hbehind⟩
  | .ok (some x) => exact ⟨by rw [hprinter], hprinter, hbehind⟩

namespace Agrees

variable {s s' : Session} (h : Agrees s s')

include h

theorem showDisplay {c c' : Calculator} (hc : c.Agrees c') :
    Lockstep (s.showDisplay c) (s'.showDisplay c') :=
  ⟨congrArg Reply.output hc.display, h.printer, hc⟩

theorem perform {command : Command} (hcommand : command.usesPast = false) :
    Lockstep (s.perform command) (s'.perform command) := by
  cases command with
  | negate => exact h.showDisplay h.calculator.toggleSign
  | backspace => exact h.showDisplay h.calculator.backspace
  | clear => exact h.showDisplay h.calculator.clear
  | help => exact ⟨rfl, h⟩
  | quit => exact ⟨rfl, h⟩
  | percent =>
    obtain ⟨hanswer, hbehind⟩ := h.calculator.percentage
    unfold Session.perform
    -- The answers are equal, so that both sides take the same case.
    generalize s.calculator.percentage = answered at hanswer hbehind
    generalize s'.calculator.percentage = answered' at hanswer hbehind
    obtain ⟨answer, c⟩ := answered
    obtain ⟨_, c'⟩ := answered'
    obtain rfl : answer = _ := hanswer
    cases answer with
    | error e => exact ⟨rfl, h.printer, hbehind⟩
    | ok x => exact h.showDisplay hbehind
  | _ => cases hcommand

theorem enter (line : Text) : (s.enter line).Agrees (s'.enter line) := by
  refine ⟨h.printer, ?_⟩
  unfold Session.enter
  dsimp only
  split
  next => exact h.calculator.append line
  next => exact h.calculator.setInput line

/-- **A line keeps sessions in agreement.** -/
theorem execute {line : Text} (hline : usesPast line = false) (time time' : Nat) :
    Lockstep (s.execute time line) (s'.execute time' line) := by
  obtain ⟨-, hexecute⟩ | ⟨-, command, hcommand, hexecute⟩ | ⟨-, f, -, hexecute⟩ | ⟨-, -, hexecute⟩ :=
    execute_cases line
  · rw [hexecute, hexecute]
    exact ⟨rfl, h⟩
  · rw [hexecute, hexecute]
    rw [usesPast, hcommand] at hline
    exact h.perform hline
  · rw [hexecute, hexecute]
    exact ⟨rfl, h⟩
  · have hentered := h.enter (Text.trim line)
    obtain ⟨hanswer, hbehind⟩ := Calculator.calculate_agrees hentered.calculator.evaluator
      hentered.calculator.input (fun _ => hentered.calculator.result) time time'
    rw [hexecute, hexecute]
    exact calculate_lockstep h.printer hanswer hbehind

theorem executeAll {lines : List Text} (hlines : ∀ line ∈ lines, usesPast line = false)
    (clock clock' : Nat → Nat) :
    Lockstep (s.executeAll clock lines) (s'.executeAll clock' lines) := by
  induction lines generalizing s s' clock clock' with
  | nil => exact ⟨rfl, h⟩
  | cons line lines ih =>
    have hline := h.execute (hlines line List.mem_cons_self) (clock 0) (clock' 0)
    have hrest := ih hline.2 (fun l hl => hlines l (List.mem_cons_of_mem line hl))
      (fun n => clock (n + 1)) (fun n => clock' (n + 1))
    exact executeAll_cons_lockstep hline hrest

end Agrees

/-! ## The memory -/

theorem memory_calculate (s : Session) (time : Nat) :
    (s.calculate time).2.calculator.memory = s.calculator.memory := by
  rw [calculate_snd]
  exact s.calculator.memory_perform (.calculate time)

theorem memory_perform (s : Session) {command : Command} (hcommand : command.usesPast = false) :
    (s.perform command).2.calculator.memory = s.calculator.memory := by
  rw [perform_snd]
  cases command with
  | negate => exact s.calculator.memory_perform .toggleSign
  | percent => exact s.calculator.memory_perform .percentage
  | backspace => rfl
  | clear => rfl
  | help => rfl
  | quit => rfl
  | _ => cases hcommand

theorem memory_enter (s : Session) (line : Text) :
    (s.enter line).calculator.memory = s.calculator.memory := by
  unfold enter
  dsimp only
  split <;> rfl

theorem memory_execute (s : Session) {line : Text} (hline : usesPast line = false) (time : Nat) :
    (s.execute time line).2.calculator.memory = s.calculator.memory := by
  obtain ⟨-, hexecute⟩ | ⟨-, command, hcommand, hexecute⟩ | ⟨-, f, -, hexecute⟩ | ⟨-, -, hexecute⟩ :=
    execute_cases line
  · rw [hexecute]
  · rw [hexecute]
    rw [usesPast, hcommand] at hline
    exact s.memory_perform hline
  · rw [hexecute]
  · rw [hexecute, memory_calculate, memory_enter]

theorem memory_executeAll (s : Session) {lines : List Text}
    (hlines : ∀ line ∈ lines, usesPast line = false) (clock : Nat → Nat) :
    (s.executeAll clock lines).2.calculator.memory = s.calculator.memory := by
  induction lines generalizing s clock with
  | nil => rfl
  | cons line lines ih =>
    rw [executeAll_cons, ← s.memory_execute (hlines line List.mem_cons_self) (clock 0)]
    exact ih _ (fun l hl => hlines l (List.mem_cons_of_mem line hl)) _

/-! ## A fresh line -/

theorem execute_of_startsAfresh (s : Session) {line : Text} (h : StartsAfresh line) (time : Nat) :
    s.execute time line =
      { s with calculator := s.calculator.setInput (Text.trim line) }.calculate time := by
  obtain ⟨c, t, htrim, hc⟩ := h
  have hcolon : (Text.trim line).head? ≠ some ':' := by
    rw [htrim]
    rintro ⟨⟩
    exact hc List.mem_cons_self
  have hfresh : continuesValue (Text.trim line) = false := by
    simp only [List.mem_cons, List.not_mem_nil, or_false, not_or] at hc
    simp [htrim, continuesValue, hc]
  obtain ⟨hblank, -⟩ | ⟨hcommand, -⟩ | ⟨herror, -⟩ | ⟨-, -, hexecute⟩ := execute_cases line
  · rw [htrim] at hblank
    cases hblank
  · exact absurd hcommand hcolon
  · exact absurd herror hcolon
  · rw [hexecute, enter, hfresh]
    rfl

theorem execute_fresh_lockstep {s s' : Session} (hprinter : s.printer = s'.printer)
    (hevaluator : s.calculator.evaluator = s'.calculator.evaluator) {line : Text}
    (h : StartsAfresh line) (time time' : Nat) :
    Lockstep (s.execute time line) (s'.execute time' line) := by
  have hne : Text.trim (Text.trim line) ≠ [] := by
    rw [Text.trim_of_isTrimmed (Text.isTrimmed_trim line)]
    obtain ⟨c, t, htrim, -⟩ := h
    rw [htrim]
    exact List.cons_ne_nil c t
  have hsame : (s.calculator.setInput (Text.trim line)).evaluator =
      (s'.calculator.setInput (Text.trim line)).evaluator := hevaluator
  obtain ⟨hanswer, hbehind⟩ :=
    Calculator.calculate_agrees hsame rfl (fun hblank => absurd hblank hne) time time'
  rw [s.execute_of_startsAfresh h, s'.execute_of_startsAfresh h]
  exact calculate_lockstep hprinter hanswer hbehind

/-- **A fresh line forgets the past.** Take two sessions with the same evaluator and printer, but any
input, result, memory and history, and the same lines, of which the first one starts afresh and none
touches the memory or shows the history. Each line gets the same reply in both sessions. Behind them
the input and the shown result are the same, and each session has the memory it had. -/
theorem fresh_line_forgets {s s' : Session} (hprinter : s.printer = s'.printer)
    (hevaluator : s.calculator.evaluator = s'.calculator.evaluator) {first : Text}
    {lines : List Text} (hfirst : StartsAfresh first)
    (hlines : ∀ line ∈ first :: lines, usesPast line = false) (clock clock' : Nat → Nat) :
    let run := s.executeAll clock (first :: lines)
    let run' := s'.executeAll clock' (first :: lines)
    run.1 = run'.1 ∧ run.2.calculator.input = run'.2.calculator.input ∧
      run.2.calculator.resultDisplay = run'.2.calculator.resultDisplay ∧
      run.2.calculator.memory = s.calculator.memory ∧
      run'.2.calculator.memory = s'.calculator.memory := by
  intro run run'
  have hline := execute_fresh_lockstep hprinter hevaluator hfirst (clock 0) (clock' 0)
  have hrest := hline.2.executeAll (fun l hl => hlines l (List.mem_cons_of_mem first hl))
    (fun n => clock (n + 1)) (fun n => clock' (n + 1))
  obtain ⟨hreplies, hlast⟩ := executeAll_cons_lockstep hline hrest
  exact ⟨hreplies, hlast.calculator.input, hlast.calculator.resultDisplay,
    s.memory_executeAll hlines clock, s'.memory_executeAll hlines clock'⟩

/-- A difference, a product, the other sign and a sum, with a memory and an error behind or not. -/
theorem fresh_line_forgets_error :
    let s := Session.new .standard ⟨false⟩
    let s' := (s.executeAll id ["7".toList, ":m+".toList, "1/0".toList]).2
    let first := " 2-5".toList
    let lines := ["×4".toList, ":neg".toList, "+1".toList]
    s.printer = s'.printer ∧ s.calculator.evaluator = s'.calculator.evaluator ∧
      StartsAfresh first ∧ (∀ line ∈ first :: lines, usesPast line = false) ∧
      (s.executeAll id (first :: lines)).1 = (s'.executeAll id (first :: lines)).1 ∧
      s.calculator.memory ≠ s'.calculator.memory := by
  intro s s' first lines
  have hprinter : s.printer = s'.printer := by decide +kernel
  have hevaluator : s.calculator.evaluator = s'.calculator.evaluator := by decide +kernel
  have hfirst : StartsAfresh first := ⟨'2', ['-', '5'], by decide +kernel, by decide⟩
  have hlines : ∀ line ∈ first :: lines, usesPast line = false := by decide +kernel
  exact ⟨hprinter, hevaluator, hfirst, hlines,
    (fresh_line_forgets hprinter hevaluator hfirst hlines id id).1, by decide +kernel⟩

end Session

end DeskCalculator
