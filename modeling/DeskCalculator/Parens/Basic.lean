import DeskCalculator.Text.Basic

/-!
# Matching parentheses

`Parens.scan?` matches the parentheses of a text in one pass with a stack of those that are open,
and fails where one stays open or closes nothing. Positions are byte offsets of the UTF-8 form.
-/

namespace DeskCalculator

/-- The matching parentheses of a text. -/
structure Parens where
  /-- The offsets of an opening parenthesis and of the closing one that matches it. -/
  pairs : List (Nat × Nat)
  /-- The largest number of parentheses that are open at a time. -/
  depth : Nat
  deriving DecidableEq

namespace Parens

/-- Matches the parentheses of the text that starts at `offset`, inside those that are open; the
pairs are in the order of their closing. -/
def scanFrom (opened : List Nat) (offset : Nat) : Text → Option Parens
  | [] => if opened = [] then some ⟨[], 0⟩ else none
  | c :: t =>
    if c = '(' then do
      let later ← scanFrom (offset :: opened) (offset + c.utf8Size) t
      return ⟨later.pairs, max (opened.length + 1) later.depth⟩
    else if c = ')' then
      match opened with
      | [] => none
      | start :: opened => do
        let later ← scanFrom opened (offset + c.utf8Size) t
        return ⟨(start, offset) :: later.pairs, later.depth⟩
    else scanFrom opened (offset + c.utf8Size) t

/-- The matching parentheses of a text, the pairs by their opening, if all of them match. -/
def scan? (t : Text) : Option Parens := do
  let found ← scanFrom [] 0 t
  return ⟨found.pairs.mergeSort fun p q => decide (p.1 ≤ q.1), found.depth⟩

/-- Whether the first pair lies strictly inside the second. -/
def inside (p q : Nat × Nat) : Bool := q.1 < p.1 && p.2 < q.2

/-- The first pair with no other pair inside. -/
def innermost? (m : Parens) : Option (Nat × Nat) := m.pairs.find? fun q => !m.pairs.any (inside · q)

end Parens

end DeskCalculator
