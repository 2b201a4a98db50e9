import DeskCalculator.Arguments.Basic

/-!
# Scanning the command line

The words of a level are taken from the left. A value is not looked at when it is taken, but when
the next option or expression is (`resolve`), or at the end: this decides which of several errors is
reported. A word that is no option at the program's level is a command, whose level has the words
behind it.
-/

namespace DeskCalculator

namespace Arguments

/-- What is taken but not looked at yet. -/
inductive Pending where
  | nothing
  /-- An option without the value that is due. -/
  | awaiting (key : Key)
  | value (key : Key) (value : Text)
  | expressions (ts : List Text)
  deriving DecidableEq

/-- What the words so far come to. -/
structure Scan where
  given : Given
  pending : Pending
  /-- Whether a double dash was seen, behind which no word is an option. -/
  plainOnly : Bool

namespace Scan

/-- Before the first word. -/
def start : Scan := ⟨.nothing, .nothing, false⟩

/-- Looks at what was taken. -/
def resolve (s : Scan) : Except Halt Scan :=
  match s.pending with
  | .nothing => .ok s
  | .awaiting key => .error (.missingValue key.word)
  | .value key value => do return { s with given := ← s.given.store key value, pending := .nothing }
  | .expressions ts =>
    .ok { s with
      given := { s.given with expressions := s.given.expressions ++ ts }
      pending := .nothing }

/-- Takes an option that has no value. -/
def takeFlag (s : Scan) (level : Level) (key : Key) : Except Halt Scan := do
  let s ← s.resolve
  return { s with given := ← s.given.set level key }

/-- Takes an option that has a value, which may be joined to it. -/
def takeOption (s : Scan) (key : Key) (joined : Option Text) : Except Halt Scan := do
  let s ← s.resolve
  match joined with
  | some value => return { s with given := ← s.given.store key value }
  | none => return { s with pending := .awaiting key }

/-- Takes a long option: its word, and what follows an equals sign. -/
def takeLong (s : Scan) (level : Level) (word : Text) (joined : Option Text) : Except Halt Scan :=
  match (Key.ofLevel level).find? (·.word = word) with
  | none => .error (.unknownArgument word)
  | some key =>
    if key.takesValue then s.takeOption key joined
    else
      match joined with
      | some value => .error (.needlessValue word value)
      | none => s.takeFlag level key

/-- Takes joined letters; the first of them that takes a value has the rest for it. -/
def takeLetters (s : Scan) (level : Level) : Text → Except Halt Scan
  | [] => .ok s
  | c :: rest =>
    match (Key.ofLevel level).find? (·.letter? = some c) with
    | none => .error (.unknownArgument ['-', c])
    | some key =>
      if key.takesValue then
        s.takeOption key
          (match rest with
          | [] => none
          | '=' :: value => some value
          | value => some value)
      else do (← s.takeFlag level key).takeLetters level rest

/-- Whether the text behind a minus sign makes a number of it: digits, with one point behind the
first of them and one exponent, marked in either case, that is neither first nor last. -/
def isNumber (t : Text) : Bool :=
  let isMark := fun c : Char => c.toLower == 'e'
  let (whole, exponent) := (t.takeWhile (!isMark ·), t.dropWhile (!isMark ·))
  let point := whole.all (fun c => c.isDigit || c == '.') && whole.count '.' ≤ 1 &&
    whole.head? != some '.'
  match exponent with
  | [] => point
  | _ :: digits => point && !whole.isEmpty && !digits.isEmpty && digits.all Char.isDigit

example : isNumber "1.5E10".toList = true := by decide +kernel
example : isNumber "1e5E2".toList = false := by decide +kernel
example : isNumber ".5e3".toList = false := by decide +kernel

/-- Whether a word stands for a command or asks for help. -/
def isCommandWord (word : Text) : Bool := word = Key.help.word || (Level.command? word).isSome

/-- Takes a word that is no option; behind a double dash a word for a command is none either. -/
def takePlain (s : Scan) (level : Level) (word : Text) : Except Halt Scan :=
  match level, s.pending with
  | .batch, .expressions ts => .ok { s with pending := .expressions (ts ++ [word]) }
  | .batch, _ => do return { ← s.resolve with pending := .expressions [word] }
  | .session, _ => .error (.unknownArgument word)
  | .program, _ =>
    if s.plainOnly && isCommandWord word then .error (.unknownArgument word)
    else .error (.unknownCommand word)

/-- Takes a word that is no option, or that is the value of an option before it. -/
def takeValue (s : Scan) (level : Level) (word : Text) : Except Halt Scan :=
  match s.pending with
  | .awaiting key => .ok { s with pending := .value key word }
  | _ => s.takePlain level word

/-- Takes a word. -/
def take (s : Scan) (level : Level) (word : Text) : Except Halt Scan :=
  if s.plainOnly then s.takePlain level word
  else
    match word with
    | ['-', '-'] => .ok { s with plainOnly := true }
    | '-' :: '-' :: long =>
      match long.dropWhile (· != '=') with
      | [] => s.takeLong level long none
      | _ :: value => s.takeLong level (long.takeWhile (· != '=')) (some value)
    | ['-'] => s.takeValue level word
    | '-' :: letters =>
      if level = .batch && isNumber letters then s.takeValue level word
      else s.takeLetters level letters
    | _ => s.takeValue level word

/-- Whether a word can be a command. -/
def canBeCommand (s : Scan) (level : Level) : Bool :=
  level == .program && !s.plainOnly &&
    match s.pending with
    | .awaiting _ => false
    | _ => true

/-- What asking for help on some words comes to: one word for a command is understood. -/
def helpOn : List Text → Halt
  | [] => .help .program
  | [word] =>
    if isCommandWord word then .help ((Level.command? word).getD .program)
    else .unknownCommand word
  | word :: next :: _ => .unknownCommand (if isCommandWord word then next else word)

/-- Takes the words of a level up to a command, which is returned with the words behind it. -/
def takeAll (s : Scan) (level : Level) : List Text → Except Halt (Scan × Option (Level × List Text))
  | [] => .ok (s, none)
  | word :: words =>
    if s.canBeCommand level && word = Key.help.word then .error (helpOn words)
    else
      match s.canBeCommand level, Level.command? word with
      | true, some command => .ok (s, some (command, words))
      | _, _ => do (← s.take level word).takeAll level words

end Scan

end Arguments

end DeskCalculator
