import DeskCalculator.Token

/-!
# Errors of an evaluation

An error is a cause. What is wrong with an expression is a `Fault`, which keeps the part of the
expression that it is about; `CalcError.message` is the one place that words the causes.
-/

namespace DeskCalculator

/-- What makes an expression invalid. -/
inductive Fault where
  | notANumber
  | operatorMissingBefore
  | operatorMissingAfter
  | emptySubexpression
  | unreadable (text : Text)
  | unexpectedCharacter (c : Char)
  | malformedNumber (text : Text)
  | unknownFunction (name : Text)
  | emptyExpression
  | unexpectedToken (token : Token) (position : Nat)
  | rootWithoutGroup (found : Option Token)
  | numberExpected (found : Token)
  | endOfExpression
  | emptyParentheses
  | closingExpected (found : Token)
  deriving DecidableEq

/-- Why an evaluation has no value. -/
inductive CalcError where
  | mismatchedParentheses
  | invalid (fault : Fault)
  | divisionByZero
  | negativeRoot (argument : Binary64)
  | overflow
  | tooLong (length limit : Nat)
  | tooDeep (depth limit : Nat)
  deriving DecidableEq

namespace Fault

/-- The wording of a fault. -/
def message : Fault → Text
  | notANumber => "result is not a number".toList
  | operatorMissingBefore => "missing operator before '('".toList
  | operatorMissingAfter => "missing operator after ')'".toList
  | emptySubexpression => "empty sub-expression".toList
  | unreadable text => "cannot evaluate ".toList ++ Token.quoted text
  | unexpectedCharacter c => "unexpected character ".toList ++ Token.quoted [c]
  | malformedNumber text => "invalid number ".toList ++ Token.quoted text
  | unknownFunction name => "unknown function ".toList ++ Token.quoted name
  | emptyExpression => "empty expression".toList
  | unexpectedToken token position =>
    "unexpected ".toList ++ token.display ++ " at token ".toList ++ Text.ofNat position
  | rootWithoutGroup none => "expected '(' after 'sqrt'".toList
  | rootWithoutGroup (some token) => "expected '(' after 'sqrt' but found ".toList ++ token.display
  | numberExpected token => "expected a number but found ".toList ++ token.display
  | endOfExpression => "unexpected end of expression".toList
  | emptyParentheses => "empty parentheses".toList
  | closingExpected token => "expected ')' but found ".toList ++ token.display

end Fault

namespace CalcError

/-- The wording of an error. -/
def message : CalcError → Text
  | mismatchedParentheses => "Mismatched parentheses".toList
  | invalid fault => "Invalid expression: ".toList ++ fault.message
  | divisionByZero => "Division by zero".toList
  | negativeRoot argument => "Domain error: square root of ".toList ++ argument.display
  | overflow => "Overflow: result exceeds maximum value".toList
  | tooLong length limit =>
    "Expression too long: ".toList ++ Text.ofNat length ++ " characters (limit ".toList ++
      Text.ofNat limit ++ [')']
  | tooDeep depth limit =>
    "Expression nested too deeply: depth ".toList ++ Text.ofNat depth ++ " (limit ".toList ++
      Text.ofNat limit ++ [')']

end CalcError

/-- What an evaluation comes to. -/
abbrev Outcome (α : Type) := Except CalcError α

/-- Outcomes are equal if they are of one kind and hold the same. -/
instance decidableEqExcept {ε α : Type} [DecidableEq ε] [DecidableEq α] :
    DecidableEq (Except ε α)
  | .ok a, .ok b =>
    if h : a = b then isTrue (congrArg _ h) else isFalse fun e => h (Except.ok.inj e)
  | .error a, .error b =>
    if h : a = b then isTrue (congrArg _ h) else isFalse fun e => h (Except.error.inj e)
  | .ok _, .error _ => isFalse nofun
  | .error _, .ok _ => isFalse nofun

end DeskCalculator
