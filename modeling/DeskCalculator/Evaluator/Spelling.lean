import DeskCalculator.Text.Blank

/-!
# Spellings

Some operators have a sign of their own that a keyboard lacks. `normalize` turns these signs into
the spelling that the evaluation reads, and trims the text.
-/

namespace DeskCalculator

/-- The display spellings and the ones to evaluate, in the order in which they are replaced; a root
that has its parenthesis gains no second one. -/
def spellings : List (Text × Text) :=
  [(['×'], ['*']), (['÷'], ['/']), (['√', '('], "sqrt(".toList), (['√'], "sqrt(".toList)]

/-- The text in the spelling that is evaluated. -/
def normalize (t : Text) : Text :=
  Text.trim (spellings.foldl (fun t spelling => Text.replaceAll spelling.1 spelling.2 t) t)

end DeskCalculator
