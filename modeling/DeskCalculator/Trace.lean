import DeskCalculator.Error
import DeskCalculator.Mode

/-!
# Trace of an evaluation

An evaluation can be followed by its events: the steps of a reduction, and at the end what came of
it. An event is a cause like an error; its level, message and fields are worded here.
-/

namespace DeskCalculator

/-- A step of an evaluation. -/
inductive Event where
  /-- A text without groups is split at the operator at a byte offset. -/
  | split (text : Text) (op : Operator) (offset : Nat)
  /-- A group of a text is replaced by its value. -/
  | resolved (text result : Text)
  | evaluated (mode : Mode) (input : Text) (value : Binary64)
  | failed (mode : Mode) (input : Text) (error : CalcError)
  deriving DecidableEq

namespace Event

/-- How much an event matters. -/
inductive Level where
  | trace
  | debug
  deriving DecidableEq

/-- What a field of an event holds. -/
inductive Field where
  | text (t : Text)
  | number (x : Binary64)
  deriving DecidableEq

/-- The level of an event. -/
def level : Event → Level
  | split .. | resolved .. => .trace
  | evaluated .. | failed .. => .debug

/-- The message of an event. -/
def message : Event → Text
  | split .. => "splitting on rightmost operator".toList
  | resolved .. => "resolved parenthesis group".toList
  | evaluated .. => "evaluated".toList
  | failed .. => "evaluation failed".toList

/-- The named fields of an event. -/
def fields : Event → List (Text × Field)
  | split text op offset =>
    [("expr".toList, .text text), ("op".toList, .text [op.symbol]),
      ("at".toList, .text (Text.ofNat offset))]
  | resolved text result => [("from".toList, .text text), ("to".toList, .text result)]
  | evaluated mode input value =>
    [("mode".toList, .text mode.name), ("input".toList, .text input),
      ("value".toList, .number value)]
  | failed mode input error =>
    [("mode".toList, .text mode.name), ("input".toList, .text input),
      ("error".toList, .text error.message)]

end Event

end DeskCalculator
