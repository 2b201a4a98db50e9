import DeskCalculator.Binary64.Written

/-!
# Printing for people

A printer words the lines that people read: results, notes and errors, on a coloured output each
with its own style.
-/

namespace DeskCalculator

/-- A printer for an output with or without colours. -/
structure Printer where
  colored : Bool
  deriving DecidableEq

namespace Printer

/-- The control sequence that selects a style by its number. -/
def escape (style : Nat) : Text := '\x1b' :: '[' :: (Text.ofNat style ++ ['m'])

/-- A text in several styles, after which the plain style holds again. -/
def styled (p : Printer) (styles : List Nat) (t : Text) : Text :=
  if p.colored then styles.flatMap escape ++ t ++ escape 0 else t

/-- An error line: the word is red and bold. -/
def error (p : Printer) (message : Text) : Text :=
  p.styled [31, 1] "error:".toList ++ ' ' :: message

/-- A result: green. -/
def value (p : Printer) (x : Binary64) : Text := p.styled [32] x.general

/-- A remark: dim. -/
def note (p : Printer) (message : Text) : Text := p.styled [2] message

end Printer

end DeskCalculator
