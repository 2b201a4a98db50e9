import DeskCalculator.Failure
import DeskCalculator.Text.Blank

/-!
# Commands of a session

A command is a line of one or two words, of which the first one starts with a colon.
-/

namespace DeskCalculator

/-- A command of a session. -/
inductive Command where
  | memoryAdd
  | memorySubtract
  | memoryRecall
  | memoryClear
  | negate
  | percent
  | backspace
  | clear
  | history (json : Bool)
  | help
  | quit
  deriving DecidableEq

namespace Command

/-- The commands and the words for each of them. -/
def spellings : List (List Text × Command) :=
  [([":m+".toList], memoryAdd), ([":m-".toList], memorySubtract), ([":mr".toList], memoryRecall),
    ([":mc".toList], memoryClear), ([":neg".toList], negate), ([":percent".toList], percent),
    ([":%".toList], percent), ([":back".toList], backspace), ([":clear".toList], clear),
    ([":history".toList], history false), ([":history".toList, "json".toList], history true),
    ([":help".toList], help), ([":?".toList], help), ([":quit".toList], quit),
    ([":q".toList], quit), ([":exit".toList], quit)]

/-- Reads a command. -/
def ofText (line : Text) : Except Failure Command :=
  let words := Text.words line
  if 2 < words.length then .error (.tooManyArguments line)
  else
    match spellings.lookup words with
    | some command => .ok command
    | none => .error (.unknownCommand line)

/-- What the help command shows. -/
def helpText : Text :=
  "Enter an expression to evaluate it. A line starting with + * / × or ÷
continues from the current value.

Commands:
  :m+            add the current value to memory
  :m-            subtract the current value from memory
  :mr            recall memory
  :mc            clear memory
  :neg           toggle the sign of the current value
  :percent       divide the current value by 100
  :back          delete the last character
  :clear         clear the current value
  :history       show history, newest first
  :history json  show history as JSON
  :help          show this help
  :quit          exit".toList

end Command

end DeskCalculator
