import DeskCalculator.Text.Blank
import DeskCalculator.Literal

/-!
# Cutting a text into tokens

A text is cut at its blanks and between lexemes, where a lexeme is the longest run of digits with at
most one point, the longest run of ASCII letters, or any other single character (`Lexeme.cut`). Each
lexeme then is a token or an error of its own (`Lexeme.token`).

`nextToken` reads one token and says where the next reading goes on: behind the lexeme, also when
that is no token, but in front of a character that starts no token at all. `tokenize` reads all.
-/

namespace DeskCalculator

/-- A piece of an expression. -/
inductive Lexeme where
  /-- A run of digits with at most one point. -/
  | numeral (text : Text)
  /-- A run of ASCII letters. -/
  | word (text : Text)
  /-- A character that belongs to no run. -/
  | mark (c : Char)
  deriving DecidableEq

namespace Lexeme

/-- The longest run of digits with at most one point, or with none if one was seen, and the text
behind it. -/
def numeralRun (pointSeen : Bool) : Text → Text × Text
  | [] => ([], [])
  | c :: t =>
    if c.isDigit || (c == '.' && !pointSeen) then
      let (run, rest) := numeralRun (pointSeen || c == '.') t
      (c :: run, rest)
    else ([], c :: t)

/-- The lexeme that starts with `c` in the text `c :: t`, and the text behind it. -/
def cut (c : Char) (t : Text) : Lexeme × Text :=
  if Literal.isNumeral c then
    let (run, rest) := numeralRun false (c :: t)
    (.numeral run, rest)
  else if c.isAlpha then (.word (c :: t.takeWhile Char.isAlpha), t.dropWhile Char.isAlpha)
  else (.mark c, t)

/-- The characters of a lexeme. -/
def text : Lexeme → Text
  | numeral t | word t => t
  | mark c => [c]

/-- The token of a lexeme. -/
def token : Lexeme → Outcome Token
  | numeral t =>
    match literal? t with
    | .error e => .error e
    | .ok none => .error (.invalid (.malformedNumber t))
    | .ok (some value) => .ok (.number value)
  | word t => if t = Token.rootWord then .ok .root else .error (.invalid (.unknownFunction t))
  | mark c =>
    if c = '(' then .ok .opening
    else if c = ')' then .ok .closing
    else
      match Operator.ofSymbol? c with
      | some op => .ok (.operator op)
      | none => .error (.invalid (.unexpectedCharacter c))

/-! ## Nothing is lost -/

theorem numeralRun_append (pointSeen : Bool) (t : Text) :
    (numeralRun pointSeen t).1 ++ (numeralRun pointSeen t).2 = t := by
  induction t generalizing pointSeen with
  | nil => rfl
  | cons c t ih =>
    rw [numeralRun]
    split
    · simp [ih]
    · rfl

theorem cut_append (c : Char) (t : Text) : (cut c t).1.text ++ (cut c t).2 = c :: t := by
  unfold cut
  split
  · exact numeralRun_append false (c :: t)
  · split
    · simp [text]
    · rfl

/-- A lexeme has at least one character. -/
theorem length_cut_lt (c : Char) (t : Text) : (cut c t).2.length < (c :: t).length := by
  have hsum := congrArg List.length (cut_append c t)
  have hpos : 0 < (cut c t).1.text.length := by
    unfold cut
    split
    next h =>
      have hstart : (c.isDigit || (c == '.' && !false)) = true := by
        simpa [Literal.isNumeral] using h
      have hrun : numeralRun false (c :: t) =
          (c :: (numeralRun (false || c == '.') t).1, (numeralRun (false || c == '.') t).2) := by
        rw [numeralRun, if_pos hstart]
      rw [hrun]
      exact Nat.succ_pos _
    next =>
      split
      · exact Nat.succ_pos _
      · exact Nat.one_pos
  rw [List.length_append] at hsum
  omega

end Lexeme

/-! ## Reading tokens -/

/-- The first token of a text, if there is one, and the text from which the next reading goes on. -/
def nextToken (t : Text) : Outcome (Option Token) × Text :=
  match Text.trimStart t with
  | [] => (.ok none, [])
  | c :: t =>
    match (Lexeme.cut c t).1.token with
    | .ok token => (.ok (some token), (Lexeme.cut c t).2)
    | .error e =>
      match Lexeme.cut c t with
      | (.mark _, _) => (.error e, c :: t)
      | (_, rest) => (.error e, rest)

/-- A reading that gives a token goes on behind it. -/
theorem length_nextToken_lt {t rest : Text} {token : Token}
    (h : nextToken t = (.ok (some token), rest)) : rest.length < t.length := by
  have htrim : (Text.trimStart t).length ≤ t.length := (Text.trimStart_sublist t).length_le
  unfold nextToken at h
  split at h
  next => simp at h
  next c u hu =>
    have hcut := Lexeme.length_cut_lt c u
    rw [hu] at htrim
    split at h
    next =>
      simp only [Prod.mk.injEq] at h
      rw [← h.2]
      omega
    next => split at h <;> simp at h

/-- All tokens of a text, or the error of its first lexeme that is no token. -/
def tokenize (t : Text) : Outcome (List Token) :=
  match _h : nextToken t with
  | (.ok none, _) => .ok []
  | (.ok (some token), rest) => (tokenize rest).map (token :: ·)
  | (.error e, _) => .error e
termination_by t.length
decreasing_by exact length_nextToken_lt _h

end DeskCalculator
