import DeskCalculator.Batch

/-!
# Options of the command line

The command line has a level of its own for the program and one for each of its commands. A level
has options, which are written as a long word, `--mode legacy` or `--mode=legacy`, or as a letter,
of which several can be joined, `-qv`.

What the command line gives at a level is gathered in `Given`; reading it ends early (`Halt`) where
it asks for help, or where it cannot be read.
-/

namespace DeskCalculator

namespace Arguments

/-- The program or one of its commands. -/
inductive Level where
  | program
  /-- Evaluates the expressions on the command line. -/
  | batch
  /-- Runs a session over the standard input. -/
  | session
  deriving DecidableEq

namespace Level

/-- The word for a command. -/
def name : Level → Text
  | program => "infixcalc".toList
  | batch => "eval".toList
  | session => "repl".toList

/-- The command that a word stands for. -/
def command? (word : Text) : Option Level := [batch, session].find? (·.name = word)

end Level

/-- Why reading the command line ends early. -/
inductive Halt where
  | help (level : Level)
  | version (level : Level)
  /-- Nothing is given at all. -/
  | nothingGiven
  | missingCommand
  | missingExpressions
  | unknownCommand (word : Text)
  | unknownArgument (word : Text)
  | missingValue (option : Text)
  | invalidValue (option value : Text)
  | invalidNumber (option value : Text)
  /-- The option has a value that it does not take. -/
  | needlessValue (option value : Text)
  /-- The option is given twice. -/
  | repeated (option : Text)
  deriving DecidableEq

/-- An option of a level. -/
inductive Key where
  | verbose
  | quiet
  | color
  | mode
  | maxLength
  | maxDepth
  | historyLimit
  | format
  | noPrompt
  | help
  | version
  deriving DecidableEq

namespace Key

/-- The long word of an option, without its dashes. -/
def word : Key → Text
  | verbose => "verbose".toList
  | quiet => "quiet".toList
  | color => "color".toList
  | mode => "mode".toList
  | maxLength => "max-length".toList
  | maxDepth => "max-depth".toList
  | historyLimit => "history-limit".toList
  | format => "format".toList
  | noPrompt => "no-prompt".toList
  | help => "help".toList
  | version => "version".toList

/-- The letter of an option. -/
def letter? : Key → Option Char
  | verbose => some 'v'
  | quiet => some 'q'
  | format => some 'f'
  | help => some 'h'
  | version => some 'V'
  | _ => none

/-- Whether an option takes a value. -/
def takesValue : Key → Bool
  | color | mode | maxLength | maxDepth | historyLimit | format => true
  | _ => false

/-- The environment variable that stands in for an option. -/
def environmentName? : Key → Option Text
  | mode => some "INFIXCALC_MODE".toList
  | maxLength => some "INFIXCALC_MAX_LENGTH".toList
  | maxDepth => some "INFIXCALC_MAX_DEPTH".toList
  | historyLimit => some "INFIXCALC_HISTORY_LIMIT".toList
  | _ => none

/-- The options of a level. -/
def ofLevel (level : Level) : List Key :=
  [verbose, quiet, color, mode, maxLength, maxDepth, historyLimit, help, version] ++
    match level with
    | .program => []
    | .batch => [format]
    | .session => [noPrompt]

end Key

/-- What is given at a level. -/
structure Given where
  verbose : Nat
  quiet : Bool
  color : Option ColorChoice
  mode : Option Mode
  maxLength : Option Nat
  maxDepth : Option Nat
  historyLimit : Option Nat
  format : Option OutputFormat
  noPrompt : Bool
  expressions : List Text

namespace Given

/-- Nothing given. -/
def nothing : Given := ⟨0, false, none, none, none, none, none, none, false, []⟩

/-- Whether an option is given. -/
def has (g : Given) : Key → Bool
  | .verbose => g.verbose != 0
  | .quiet => g.quiet
  | .color => g.color.isSome
  | .mode => g.mode.isSome
  | .maxLength => g.maxLength.isSome
  | .maxDepth => g.maxDepth.isSome
  | .historyLimit => g.historyLimit.isSome
  | .format => g.format.isSome
  | .noPrompt => g.noPrompt
  | .help | .version => false

/-- The colour choice of a word. -/
def color? (t : Text) : Option ColorChoice :=
  [("auto".toList, .auto), ("always".toList, .always), ("never".toList, .never)].lookup t

/-- The output format of a word. -/
def format? (t : Text) : Option OutputFormat :=
  [("text".toList, .text), ("json".toList, .json)].lookup t

/-- A count that a machine word of 64 bits can hold. -/
def count? (t : Text) : Option Nat := (Text.natural? t).filter (· < Nat.pow 2 64)

/-- A value that is read, or the option and the value that cannot be. -/
def orInvalid {α : Type} (key : Key) (value : Text) (read : Option α) : Except Halt α :=
  match read with
  | some a => .ok a
  | none => .error (.invalidValue key.word value)

/-- A count that is read, or the option and the value that cannot be. -/
def countOrInvalid (key : Key) (value : Text) : Except Halt Nat :=
  match count? value with
  | some n => .ok n
  | none => .error (.invalidNumber key.word value)

/-- Gives an option a value; an option has at most one. -/
def store (g : Given) (key : Key) (value : Text) : Except Halt Given := do
  if g.has key then throw (.repeated key.word)
  match key with
  | .color => return { g with color := some (← orInvalid key value (color? value)) }
  | .mode => return { g with mode := some (← orInvalid key value (Mode.ofName? value)) }
  | .format => return { g with format := some (← orInvalid key value (format? value)) }
  | .maxLength => return { g with maxLength := some (← countOrInvalid key value) }
  | .maxDepth => return { g with maxDepth := some (← countOrInvalid key value) }
  | .historyLimit => return { g with historyLimit := some (← countOrInvalid key value) }
  | .verbose | .quiet | .noPrompt | .help | .version => throw (.needlessValue key.word value)

/-- Sets an option that takes no value; only the verbosity can be raised again. -/
def set (g : Given) (level : Level) (key : Key) : Except Halt Given :=
  match key with
  | .verbose => .ok { g with verbose := g.verbose + 1 }
  | .quiet => if g.quiet then .error (.repeated key.word) else .ok { g with quiet := true }
  | .noPrompt => if g.noPrompt then .error (.repeated key.word) else .ok { g with noPrompt := true }
  | .help => .error (.help level)
  | .version => .error (.version level)
  | _ => .error (.missingValue key.word)

end Given

end Arguments

end DeskCalculator
