import DeskCalculator.Evaluator.Basic
import DeskCalculator.History

/-!
# The calculator

A calculator holds what is needed between two keys: the input, the outcome of the last calculation,
the history and a memory. A calculation that fails leaves the input as it is, so that it can be
corrected; one that succeeds puts its result there, so that the next one can go on with it.
-/

namespace DeskCalculator

/-- A calculator. -/
structure Calculator where
  evaluator : Evaluator
  input : Text
  /-- The outcome of the last calculation, if there is one. -/
  result : Option (Outcome Binary64)
  history : History
  memory : Binary64

namespace Calculator

/-- A calculator that is just switched on. -/
def new (evaluator : Evaluator) (capacity : Nat) : Calculator :=
  ⟨evaluator, [], none, History.empty capacity, .zero⟩

/-! ## Input -/

/-- Replaces the input. -/
def setInput (c : Calculator) (t : Text) : Calculator := { c with input := t }

/-- Writes a text behind the input. -/
def append (c : Calculator) (t : Text) : Calculator := { c with input := c.input ++ t }

/-- Clears the input and the last outcome. -/
def clear (c : Calculator) : Calculator := { c with input := [], result := none }

/-- Removes the last character of the input. -/
def backspace (c : Calculator) : Calculator := { c with input := c.input.dropLast }

/-- Removes a minus sign at the start of the input, or writes one in front of an input that has
none. -/
def toggleSign (c : Calculator) : Calculator :=
  match c.input with
  | [] => c
  | '-' :: t => { c with input := t }
  | t => { c with input := '-' :: t }

/-! ## Calculation -/

/-- The number 100. -/
def hundred : Binary64 := Decimal.toBinary64 false ⟨100, 0⟩

/-- Divides the value of the input by 100. -/
def percentage (c : Calculator) : Outcome Binary64 × Calculator :=
  match c.evaluator.evaluate c.input with
  | .error e => (.error e, c)
  | .ok x => (.ok (x.div hundred), { c with input := (x.div hundred).plain })

/-- Evaluates the input at a time; a blank input is no calculation. -/
def calculate (c : Calculator) (time : Nat) : Outcome (Option Binary64) × Calculator :=
  if Text.trim c.input = [] then (.ok none, c)
  else
    match c.evaluator.evaluate c.input with
    | .error e => (.error e, { c with result := some (.error e) })
    | .ok x =>
      (.ok (some x),
        { c with
          input := x.plain
          result := some (.ok x)
          history := c.history.push ⟨c.input, x, time⟩ })

/-- Removes the entries of the history. -/
def clearHistory (c : Calculator) : Calculator := { c with history := c.history.clear }

/-! ## Memory -/

/-- The number that the input is, if it is a literal with a finite value. -/
def inputNumber? (c : Calculator) : Option Binary64 :=
  match literal? (Text.trim c.input) with
  | .ok x => x
  | .error _ => none

/-- Adds the input to the memory, if it is a number. -/
def memoryAdd (c : Calculator) : Calculator :=
  match c.inputNumber? with
  | some x => { c with memory := c.memory.add x }
  | none => c

/-- Subtracts the input from the memory, if it is a number. -/
def memorySubtract (c : Calculator) : Calculator :=
  match c.inputNumber? with
  | some x => { c with memory := c.memory.sub x }
  | none => c

/-- Replaces the input by the memory. -/
def memoryRecall (c : Calculator) : Calculator := { c with input := c.memory.plain }

/-- Sets the memory to zero. -/
def memoryClear (c : Calculator) : Calculator := { c with memory := .zero }

/-! ## Displays -/

/-- The main display. -/
def display (c : Calculator) : Text := if c.input = [] then ['0'] else c.input

/-- The last outcome, or nothing before the first calculation. -/
def resultDisplay (c : Calculator) : Text :=
  match c.result with
  | none => []
  | some (.ok x) => x.general
  | some (.error e) => "Error: ".toList ++ e.message

end Calculator

end DeskCalculator
