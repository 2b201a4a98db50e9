import DeskCalculator.Arguments.Scan

/-!
# Invocations

An invocation is what the command line and the environment ask for: settings and a command. The
level of the command is settled first, then that of the program, each from its words, from the
environment and by what it requires. An option that is given at both levels has the value of the
command's level.
-/

namespace DeskCalculator

namespace Arguments

/-- What the program is asked to do. -/
inductive Task where
  | batch (expressions : List Text) (format : OutputFormat)
  | session (noPrompt : Bool)
  deriving DecidableEq

/-- Settings and a task. -/
structure Invocation where
  settings : Settings
  task : Task
  deriving DecidableEq

/-- The variables of the environment and their values. -/
abbrev Environment := List (Text × Text)

namespace Given

/-- Gives an option the value of its variable, if it has none yet. -/
def storeVariable (environment : Environment) (g : Given) (key : Key) : Except Halt Given :=
  match g.has key, key.environmentName?.bind fun name => List.lookup name environment with
  | false, some value => g.store key value
  | _, _ => .ok g

/-- Gives the options that are not given the values of their variables. -/
def withEnvironment (g : Given) (environment : Environment) : Except Halt Given :=
  [Key.mode, .maxLength, .maxDepth, .historyLimit].foldlM (storeVariable environment) g

/-- What is given at two levels, of which the inner one prevails. -/
def within (inner outer : Given) : Given where
  verbose := if inner.has .verbose then inner.verbose else outer.verbose
  quiet := inner.quiet || outer.quiet
  color := inner.color.or outer.color
  mode := inner.mode.or outer.mode
  maxLength := inner.maxLength.or outer.maxLength
  maxDepth := inner.maxDepth.or outer.maxDepth
  historyLimit := inner.historyLimit.or outer.historyLimit
  format := inner.format
  noPrompt := inner.noPrompt
  expressions := inner.expressions

/-- The settings, where the standard ones stand in for what is not given. -/
def settings (g : Given) : Settings where
  verbosity := .ofFlags g.quiet g.verbose
  color := g.color.getD Settings.standard.color
  mode := g.mode.getD Settings.standard.mode
  limits :=
    ⟨g.maxLength.getD Settings.standard.limits.maxLength,
      g.maxDepth.getD Settings.standard.limits.maxDepth⟩
  historyLimit := g.historyLimit.getD Settings.standard.historyLimit

/-- Whether any option is given. -/
def isAny (g : Given) : Bool := (Key.ofLevel .program).any g.has

end Given

/-- What the words give at the level of a command, where the environment must be in order too. -/
def ofCommand (environment : Environment) (level : Level) (words : List Text) :
    Except Halt Given := do
  let (scan, _) ← Scan.start.takeAll level words
  let given := (← scan.resolve).given
  let _ ← given.withEnvironment environment
  if level = .batch ∧ given.expressions = [] then throw .missingExpressions
  return given

/-- The invocation of a command line. -/
def parse (environment : Environment) (words : List Text) : Except Halt Invocation := do
  match ← Scan.start.takeAll .program words with
  | (scan, none) =>
    let full ← (← scan.resolve).given.withEnvironment environment
    throw (if full.isAny then .missingCommand else .nothingGiven)
  | (scan, some (level, words)) =>
    let inner ← ofCommand environment level words
    let outer ← (← scan.resolve).given.withEnvironment environment
    let given := inner.within outer
    return {
      settings := given.settings
      task := if level = .session then .session given.noPrompt
        else .batch given.expressions (given.format.getD .text) }

example : parse [] ["-q".toList, "eval".toList, "-5".toList, "--mode=legacy".toList] =
    .ok ⟨⟨.quiet, .auto, .legacy, .standard, 50⟩, .batch ["-5".toList] .text⟩ := by decide +kernel

example : parse [] ["eval".toList, "--mode".toList, "other".toList, "-x".toList] =
    .error (.unknownArgument "-x".toList) := by decide +kernel

end Arguments

end DeskCalculator
