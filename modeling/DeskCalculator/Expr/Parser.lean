import DeskCalculator.Expr.Basic
import DeskCalculator.Token.Lexer

/-!
# Parsing expressions

An expression is read from a token list by precedence: an operand, then operators that bind tightly
enough, each with a right operand in which only tighter operators are read, so that operators of one
precedence associate to the left. A run of signs in front of an operand negates it if the number of
minus signs is odd.

Each reading returns the tokens that it has not read, after an error too, as a tail of those that it
was given; this is why the mutual recursion ends, and it lets a `Parser` go on after an error.
-/

namespace DeskCalculator

/-- What reading an expression from the front of a token list comes to. -/
structure Reading (tokens : List Token) where
  outcome : Outcome Expr
  /-- The tokens that are not read. -/
  rest : List Token
  rest_suffix : rest <:+ tokens

namespace Reading

/-- A reading of a tail, as a reading of the whole list. -/
def within {tokens tail : List Token} (r : Reading tail) (h : tail <:+ tokens) : Reading tokens :=
  ⟨r.outcome, r.rest, r.rest_suffix.trans h⟩

/-- A reading with a change to the expression that it gives. -/
def map {tokens : List Token} (f : Expr → Expr) (r : Reading tokens) : Reading tokens :=
  ⟨r.outcome.map f, r.rest, r.rest_suffix⟩

end Reading

/-- Reads a run of signs: whether they negate, and the tokens behind them. -/
def signRun : List Token → Bool × List Token
  | .operator .add :: tokens => signRun tokens
  | .operator .subtract :: tokens =>
    let (negative, rest) := signRun tokens
    (!negative, rest)
  | tokens => (false, tokens)

theorem signRun_suffix (tokens : List Token) : (signRun tokens).2 <:+ tokens := by
  fun_induction signRun tokens with
  | case1 tokens ih => exact ih.trans (List.suffix_cons _ _)
  | case2 tokens negative rest h ih =>
    rw [h] at ih
    exact ih.trans (List.suffix_cons _ _)
  | case3 => exact List.suffix_refl _

mutual

/-- Reads an expression in which no operator binds less tightly than `least`. -/
def readBinary (least : Nat) (tokens : List Token) : Reading tokens :=
  match readUnary tokens with
  | ⟨.error e, rest, h⟩ => ⟨.error e, rest, h⟩
  | ⟨.ok left, rest, h⟩ => (readOperators least left rest).within h
termination_by 5 * tokens.length + 3
decreasing_by
  · omega
  · have := h.length_le
    omega

/-- Reads the operators behind a left operand, as long as they bind at least as tightly as
`least`. -/
def readOperators (least : Nat) (left : Expr) (tokens : List Token) : Reading tokens :=
  match tokens with
  | .operator op :: tokens =>
    if op.precedence < least then ⟨.ok left, .operator op :: tokens, List.suffix_refl _⟩
    else
      match readBinary (op.precedence + 1) tokens with
      | ⟨.error e, rest, h⟩ => ⟨.error e, rest, h.trans (List.suffix_cons _ _)⟩
      | ⟨.ok right, rest, h⟩ =>
        (readOperators least (.binary left op right) rest).within (h.trans (List.suffix_cons _ _))
  | tokens => ⟨.ok left, tokens, List.suffix_refl _⟩
termination_by 5 * tokens.length
decreasing_by
  · simp only [List.length_cons]
    omega
  · have := h.length_le
    simp only [List.length_cons]
    omega

/-- Reads an operand with its signs. -/
def readUnary (tokens : List Token) : Reading tokens :=
  let reading := (readPrimary (signRun tokens).2).within (signRun_suffix tokens)
  if (signRun tokens).1 then reading.map .negate else reading
termination_by 5 * tokens.length + 2
decreasing_by
  have := (signRun_suffix tokens).length_le
  omega

/-- Reads a number, a group or a root. -/
def readPrimary (tokens : List Token) : Reading tokens :=
  match tokens with
  | .number value :: tokens => ⟨.ok (.number value), tokens, List.suffix_cons _ _⟩
  | .opening :: tokens => (readGroup tokens).within (List.suffix_cons _ _)
  | [.root] => ⟨.error (.invalid (.rootWithoutGroup none)), [], List.nil_suffix⟩
  | .root :: .opening :: tokens =>
    ((readGroup tokens).map .root).within
      ((List.suffix_cons _ _).trans (List.suffix_cons _ _))
  | .root :: token :: tokens =>
    ⟨.error (.invalid (.rootWithoutGroup (some token))), tokens,
      (List.suffix_cons _ _).trans (List.suffix_cons _ _)⟩
  | token :: tokens => ⟨.error (.invalid (.numberExpected token)), tokens, List.suffix_cons _ _⟩
  | [] => ⟨.error (.invalid .endOfExpression), [], List.suffix_refl _⟩
termination_by 5 * tokens.length + 1
decreasing_by
  · simp only [List.length_cons]
    omega
  · simp only [List.length_cons]
    omega

/-- Reads the inside of a group and its closing parenthesis. -/
def readGroup (tokens : List Token) : Reading tokens :=
  match tokens with
  | .closing :: tokens =>
    ⟨.error (.invalid .emptyParentheses), .closing :: tokens, List.suffix_refl _⟩
  | tokens =>
    match readBinary 0 tokens with
    | ⟨.error e, rest, h⟩ => ⟨.error e, rest, h⟩
    | ⟨.ok inner, .closing :: rest, h⟩ => ⟨.ok inner, rest, (List.suffix_cons _ _).trans h⟩
    | ⟨.ok _, token :: rest, h⟩ =>
      ⟨.error (.invalid (.closingExpected token)), rest, (List.suffix_cons _ _).trans h⟩
    | ⟨.ok _, [], h⟩ => ⟨.error .mismatchedParentheses, [], h⟩
termination_by 5 * tokens.length + 4

end

/-! ## Whole expressions -/

/-- A token list that is read one expression after the other. -/
structure Parser where
  /-- The number of tokens that are read. -/
  position : Nat
  rest : List Token

namespace Parser

/-- The parser in front of a token list. -/
def ofTokens (tokens : List Token) : Parser := ⟨0, tokens⟩

/-- Reads one expression, behind which no token may follow. -/
def next (p : Parser) : Outcome Expr × Parser :=
  if p.position = 0 ∧ p.rest = [] then (.error (.invalid .emptyExpression), p)
  else
    let reading := readBinary 0 p.rest
    let position := p.position + (p.rest.length - reading.rest.length)
    let outcome :=
      match reading.outcome, reading.rest with
      | .ok _, token :: _ => .error (.invalid (.unexpectedToken token position))
      | outcome, _ => outcome
    (outcome, ⟨position, reading.rest⟩)

end Parser

namespace Expr

/-- The expression that a token list is. -/
def ofTokens (tokens : List Token) : Outcome Expr := (Parser.ofTokens tokens).next.1

/-- The expression that a text is. -/
def parse (t : Text) : Outcome Expr := do ofTokens (← tokenize t)

end Expr

end DeskCalculator
