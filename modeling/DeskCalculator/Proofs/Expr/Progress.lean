import DeskCalculator.Proofs.Expr.Reading

/-!
# The progress of a parser

A parser can be called again and again on one token list, after an error too, and always goes forward
(`Parser.progress_of_calls`): each call reads a token as long as there is one, so the tokens are used
up after at most as many calls, and from then on a call finds the end. A call that succeeds has used up
the tokens, hence is the last that can.

A call moves because an operand does: behind the signs in front of it, it reads one token or finds
the end (`length_rest_readPrimary_lt`). What is behind the operand can only move on, as each reading
leaves a tail of its tokens. The tail is also why the readings do not call each other for ever: with a
bound on how many may go on inside each other (`readBinaryWithin`), which needs no other reason to
end, they come to the same (`readBinaryWithin_eq`).
-/

namespace DeskCalculator

/-! ## One reading -/

theorem length_rest_le {tokens : List Token} (r : Reading tokens) :
    r.rest.length ≤ tokens.length := r.rest_suffix.length_le

/-- An operand takes a token, whatever it comes to. -/
theorem length_rest_readPrimary_lt {tokens : List Token} (h : tokens ≠ []) :
    (readPrimary tokens).rest.length < tokens.length := by
  cases tokens with
  | nil => exact absurd rfl h
  | cons token tokens =>
    cases token with
    | opening =>
      rw [readPrimary]
      exact Nat.lt_succ_of_le (length_rest_le (readGroup tokens))
    | root =>
      cases tokens with
      | nil =>
        rw [readPrimary]
        exact Nat.zero_lt_one
      | cons token tokens =>
        cases token with
        | opening =>
          rw [readPrimary]
          exact Nat.lt_succ_of_le (Nat.le_succ_of_le (length_rest_le (readGroup tokens)))
        | _ =>
          rw [readPrimary.eq_def]
          exact Nat.lt_succ_of_lt (Nat.lt_succ_self _)
    | _ =>
      rw [readPrimary.eq_def]
      exact Nat.lt_succ_self _

theorem length_rest_readUnary_lt {tokens : List Token} (h : tokens ≠ []) :
    (readUnary tokens).rest.length < tokens.length := by
  have hrest : (readUnary tokens).rest = (readPrimary (signRun tokens).2).rest := by
    rw [readUnary]
    split <;> rfl
  have hsigns := (signRun_suffix tokens).length_le
  rw [hrest]
  by_cases hbehind : (signRun tokens).2 = []
  · have hle := length_rest_le (readPrimary (signRun tokens).2)
    rw [hbehind, List.length_nil, Nat.le_zero] at hle
    rw [hbehind, hle]
    exact List.length_pos_iff.2 h
  · exact Nat.lt_of_lt_of_le (length_rest_readPrimary_lt hbehind) hsigns

theorem length_rest_readBinary_lt (least : Nat) {tokens : List Token} (h : tokens ≠ []) :
    (readBinary least tokens).rest.length < tokens.length := by
  have hunary := length_rest_readUnary_lt h
  rw [readBinary]
  split
  next hread => rwa [hread] at hunary
  next left rest hsuffix hread =>
    rw [hread] at hunary
    exact Nat.lt_of_le_of_lt (length_rest_le (readOperators least left rest)) hunary

theorem readBinary_nil (least : Nat) :
    (readBinary least []).result = (.error (.invalid .endOfExpression), []) := by
  have hunary : (readUnary []).result = (.error (.invalid .endOfExpression), []) := by
    rw [readUnary, readPrimary.eq_def]
    rfl
  rw [readBinary]
  split
  next hread =>
    rw [hread] at hunary
    exact hunary
  next hread =>
    rw [hread] at hunary
    cases (Prod.mk.inj hunary).1

/-! ## Readings inside each other -/

mutual

/-- Reads as `readBinary`, with at most `depth` readings inside each other. -/
def readBinaryWithin (depth least : Nat) (tokens : List Token) :
    Option (Outcome Expr × List Token) :=
  match depth with
  | 0 => none
  | depth + 1 =>
    match readUnaryWithin depth tokens with
    | some (.ok left, rest) => readOperatorsWithin depth least left rest
    | failed => failed

/-- Reads as `readOperators`, with at most `depth` readings inside each other. -/
def readOperatorsWithin (depth least : Nat) (left : Expr) (tokens : List Token) :
    Option (Outcome Expr × List Token) :=
  match depth, tokens with
  | 0, _ => none
  | depth + 1, .operator op :: tokens =>
    if op.precedence < least then some (.ok left, .operator op :: tokens)
    else
      match readBinaryWithin depth (op.precedence + 1) tokens with
      | some (.ok right, rest) => readOperatorsWithin depth least (.binary left op right) rest
      | failed => failed
  | _ + 1, tokens => some (.ok left, tokens)

/-- Reads as `readUnary`, with at most `depth` readings inside each other. -/
def readUnaryWithin (depth : Nat) (tokens : List Token) : Option (Outcome Expr × List Token) :=
  match depth with
  | 0 => none
  | depth + 1 =>
    let reading := readPrimaryWithin depth (signRun tokens).2
    if (signRun tokens).1 then reading.map fun r => (r.1.map .negate, r.2) else reading

/-- Reads as `readPrimary`, with at most `depth` readings inside each other. -/
def readPrimaryWithin (depth : Nat) (tokens : List Token) : Option (Outcome Expr × List Token) :=
  match depth, tokens with
  | 0, _ => none
  | _ + 1, .number value :: tokens => some (.ok (.number value), tokens)
  | depth + 1, .opening :: tokens => readGroupWithin depth tokens
  | _ + 1, [.root] => some (.error (.invalid (.rootWithoutGroup none)), [])
  | depth + 1, .root :: .opening :: tokens =>
    (readGroupWithin depth tokens).map fun r => (r.1.map .root, r.2)
  | _ + 1, .root :: token :: tokens =>
    some (.error (.invalid (.rootWithoutGroup (some token))), tokens)
  | _ + 1, token :: tokens => some (.error (.invalid (.numberExpected token)), tokens)
  | _ + 1, [] => some (.error (.invalid .endOfExpression), [])

/-- Reads as `readGroup`, with at most `depth` readings inside each other. -/
def readGroupWithin (depth : Nat) (tokens : List Token) : Option (Outcome Expr × List Token) :=
  match depth, tokens with
  | 0, _ => none
  | _ + 1, .closing :: tokens => some (.error (.invalid .emptyParentheses), .closing :: tokens)
  | depth + 1, tokens =>
    match readBinaryWithin depth 0 tokens with
    | some (.ok inner, .closing :: rest) => some (.ok inner, rest)
    | some (.ok _, token :: rest) => some (.error (.invalid (.closingExpected token)), rest)
    | some (.ok _, []) => some (.error .mismatchedParentheses, [])
    | failed => failed

end

-- Readings go on inside each other up to five times for each token, so the depth that is left is enough for each.
mutual

theorem readBinaryWithin_eq (depth least : Nat) (tokens : List Token) (h : 5 * tokens.length + 3 < depth) :
    readBinaryWithin depth least tokens = some (readBinary least tokens).result := by
  cases depth with
  | zero => exact absurd h (Nat.not_lt_zero _)
  | succ depth =>
    rw [readBinaryWithin, readUnaryWithin_eq depth tokens (by omega), readBinary]
    obtain ⟨outcome, rest, hsuffix⟩ := readUnary tokens
    have hlength := hsuffix.length_le
    cases outcome with
    | error e => rfl
    | ok left => exact readOperatorsWithin_eq depth least left rest (by omega)

theorem readOperatorsWithin_eq (depth least : Nat) (left : Expr) (tokens : List Token)
    (h : 5 * tokens.length < depth) :
    readOperatorsWithin depth least left tokens = some (readOperators least left tokens).result := by
  cases depth with
  | zero => exact absurd h (Nat.not_lt_zero _)
  | succ depth =>
    cases tokens with
    | nil =>
      rw [readOperators.eq_def]
      rfl
    | cons token tokens =>
      cases token with
      | operator op =>
        rw [List.length_cons] at h
        rw [readOperatorsWithin, readOperators]
        split
        next => rfl
        next =>
          rw [readBinaryWithin_eq depth (op.precedence + 1) tokens (by omega)]
          obtain ⟨outcome, rest, hsuffix⟩ := readBinary (op.precedence + 1) tokens
          have hlength := hsuffix.length_le
          cases outcome with
          | error e => rfl
          | ok right => exact readOperatorsWithin_eq depth least (.binary left op right) rest (by omega)
      | _ =>
        rw [readOperators.eq_def]
        rfl

theorem readUnaryWithin_eq (depth : Nat) (tokens : List Token) (h : 5 * tokens.length + 2 < depth) :
    readUnaryWithin depth tokens = some (readUnary tokens).result := by
  cases depth with
  | zero => exact absurd h (Nat.not_lt_zero _)
  | succ depth =>
    have hlength := (signRun_suffix tokens).length_le
    rw [readUnaryWithin, readPrimaryWithin_eq depth (signRun tokens).2 (by omega), readUnary]
    split <;> rfl

theorem readPrimaryWithin_eq (depth : Nat) (tokens : List Token) (h : 5 * tokens.length + 1 < depth) :
    readPrimaryWithin depth tokens = some (readPrimary tokens).result := by
  cases depth with
  | zero => exact absurd h (Nat.not_lt_zero _)
  | succ depth =>
    cases tokens with
    | nil =>
      rw [readPrimary]
      rfl
    | cons token tokens =>
      rw [List.length_cons] at h
      cases token with
      | opening =>
        rw [readPrimaryWithin, readGroupWithin_eq depth tokens (by omega), readPrimary]
        rfl
      | root =>
        cases tokens with
        | nil =>
          rw [readPrimary]
          rfl
        | cons token tokens =>
          rw [List.length_cons] at h
          cases token with
          | opening =>
            rw [readPrimaryWithin, readGroupWithin_eq depth tokens (by omega), readPrimary]
            rfl
          | _ =>
            rw [readPrimary.eq_def]
            rfl
      | _ =>
        rw [readPrimary.eq_def]
        rfl

theorem readGroupWithin_eq (depth : Nat) (tokens : List Token) (h : 5 * tokens.length + 4 < depth) :
    readGroupWithin depth tokens = some (readGroup tokens).result := by
  cases depth with
  | zero => exact absurd h (Nat.not_lt_zero _)
  | succ depth =>
    rw [readGroup.eq_def]
    split
    next => rfl
    next hclosing =>
      rw [readGroupWithin, readBinaryWithin_eq depth 0 tokens (by omega)]
      · obtain ⟨outcome, rest, hsuffix⟩ := readBinary 0 tokens
        cases outcome with
        | error e => rfl
        | ok inner =>
          cases rest with
          | nil => rfl
          | cons token rest => cases token <;> rfl
      all_goals exact hclosing

end

/-! ## One call -/

namespace Parser

/-- A parser at a position in a token list. -/
structure StandsIn (p : Parser) (tokens : List Token) : Prop where
  rest_eq : p.rest = tokens.drop p.position
  position_le : p.position ≤ tokens.length

theorem standsIn_ofTokens (tokens : List Token) : (ofTokens tokens).StandsIn tokens :=
  ⟨List.drop_zero.symm, Nat.zero_le _⟩

namespace StandsIn

variable {p : Parser} {tokens : List Token}

theorem position_add (h : p.StandsIn tokens) : p.position + p.rest.length = tokens.length := by
  have hle := h.position_le
  rw [h.rest_eq, List.length_drop]
  omega

variable (h : p.StandsIn tokens) (hne : tokens ≠ [])

include h hne

theorem next_eq : p.next.2.rest = (readBinary 0 p.rest).rest ∧
    p.next.2.position = p.position + (p.rest.length - (readBinary 0 p.rest).rest.length) ∧
    (∀ e, p.next.1 = .ok e → (readBinary 0 p.rest).rest = []) ∧
    ∀ e, (readBinary 0 p.rest).outcome = .error e → p.next.1 = .error e := by
  have hstart : ¬ (p.position = 0 ∧ p.rest = []) := by
    rintro ⟨hzero, hnil⟩
    rw [h.rest_eq, hzero, List.drop_zero] at hnil
    exact hne hnil
  rw [next, if_neg hstart]
  refine ⟨rfl, rfl, fun e he => ?_, fun e he => ?_⟩
  · cases hrest : (readBinary 0 p.rest).rest with
    | nil => rfl
    | cons token rest =>
      cases houtcome : (readBinary 0 p.rest).outcome with
      | ok left => simp [hrest, houtcome] at he
      | error err => simp [hrest, houtcome] at he
  · simp [he]

theorem next : p.next.2.StandsIn tokens := by
  obtain ⟨hrest, hposition, -⟩ := h.next_eq hne
  have hsuffix := (readBinary 0 p.rest).rest_suffix
  have hlength := hsuffix.length_le
  have hsum := h.position_add
  constructor
  · rw [hrest, hposition, ← List.drop_drop, ← h.rest_eq]
    exact List.suffix_iff_eq_drop.1 hsuffix
  · omega

theorem position_le_next : p.position ≤ p.next.2.position := by
  rw [(h.next_eq hne).2.1]
  exact Nat.le_add_right _ _

theorem position_lt_next (hlt : p.position < tokens.length) : p.position < p.next.2.position := by
  have hrest : p.rest ≠ [] := by
    intro hnil
    have hsum := h.position_add
    rw [hnil, List.length_nil] at hsum
    omega
  have hshorter := length_rest_readBinary_lt 0 hrest
  rw [(h.next_eq hne).2.1]
  omega

theorem position_next_of_ok {e : Expr} (he : p.next.1 = .ok e) :
    p.next.2.position = tokens.length := by
  obtain ⟨hrest, -, hok, -⟩ := h.next_eq hne
  have hsum := (h.next hne).position_add
  rwa [hrest, hok e he, List.length_nil, Nat.add_zero] at hsum

theorem next_of_position_eq (hend : p.position = tokens.length) :
    p.next.1 = .error (.invalid .endOfExpression) := by
  have hrest : p.rest = [] := by rw [h.rest_eq, hend, List.drop_length]
  refine (h.next_eq hne).2.2.2 _ ?_
  rw [hrest]
  exact (Prod.mk.inj (readBinary_nil 0)).1

end StandsIn

/-! ## Call after call -/

/-- The parser behind a number of calls, whatever they came to. -/
def after (p : Parser) : Nat → Parser
  | 0 => p
  | n + 1 => (p.after n).next.2

section

variable {tokens : List Token} (hne : tokens ≠ [])

include hne

theorem standsIn_after (n : Nat) : ((ofTokens tokens).after n).StandsIn tokens := by
  induction n with
  | zero => exact standsIn_ofTokens tokens
  | succ n ih => exact ih.next hne

theorem position_after_mono {m n : Nat} (hle : m ≤ n) :
    ((ofTokens tokens).after m).position ≤ ((ofTokens tokens).after n).position := by
  induction hle with
  | refl => exact Nat.le_refl _
  | step _ ih => exact Nat.le_trans ih ((standsIn_after hne _).position_le_next hne)

theorem le_position_after (n : Nat) :
    min n tokens.length ≤ ((ofTokens tokens).after n).position := by
  induction n with
  | zero => rw [Nat.zero_min]; exact Nat.zero_le _
  | succ n ih =>
    have hstands := standsIn_after hne n
    have hle := hstands.position_le_next hne
    show _ ≤ ((ofTokens tokens).after n).next.2.position
    by_cases hlt : ((ofTokens tokens).after n).position < tokens.length
    · have hmove := hstands.position_lt_next hne hlt
      omega
    · omega

theorem position_after_of_le {m n : Nat} (hle : m ≤ n)
    (hend : ((ofTokens tokens).after m).position = tokens.length) :
    ((ofTokens tokens).after n).position = tokens.length := by
  have hmono := position_after_mono hne hle
  have hupper := (standsIn_after hne n).position_le
  omega

theorem le_of_next_eq_ok {m n : Nat} {e e' : Expr}
    (hm : ((ofTokens tokens).after m).next.1 = .ok e)
    (hn : ((ofTokens tokens).after n).next.1 = .ok e') : n ≤ m := by
  refine Nat.not_lt.1 fun hlt => ?_
  have hend := (standsIn_after hne m).position_next_of_ok hne hm
  have hlater := (standsIn_after hne n).next_of_position_eq hne (position_after_of_le hne hlt hend)
  rw [hn] at hlater
  cases hlater

end

/-- **A parser goes forward with each call.** On a list of one token or more, it stands at a position
in the list behind any number of calls, and the next call moves it on as long as there are tokens,
whatever it comes to. A call succeeds only if it leaves no token, so that one call at most does. After
as many calls as there are tokens, or before, the tokens are used up, and from then on each call says
that the expression has come to its end. A call ends, for an expression of `n` tokens is read with no
more than `5 * n + 4` readings inside each other. -/
theorem progress_of_calls (first : Token) (more : List Token) :
    let tokens := first :: more
    let p := (ofTokens tokens).after
    (∀ n, (p n).rest = tokens.drop (p n).position ∧ (p n).position ≤ tokens.length ∧
        (p n).position ≤ (p (n + 1)).position ∧
        ((p n).position < tokens.length → (p n).position < (p (n + 1)).position) ∧
        ∀ e, (p n).next.1 = .ok e → (p (n + 1)).position = tokens.length) ∧
      (∀ m n e e', (p m).next.1 = .ok e → (p n).next.1 = .ok e' → m = n) ∧
      (p tokens.length).position = tokens.length ∧
      (∀ m n, m ≤ n → (p m).position = tokens.length →
        (p n).position = tokens.length ∧ (p n).next.1 = .error (.invalid .endOfExpression)) ∧
      ∀ least rest depth, 5 * rest.length + 4 ≤ depth →
        readBinaryWithin depth least rest = some (readBinary least rest).result := by
  intro tokens p
  have hne : tokens ≠ [] := List.cons_ne_nil _ _
  have hstands (n : Nat) : (p n).StandsIn tokens := standsIn_after hne n
  refine ⟨fun n => ⟨?_, ?_, ?_, ?_, ?_⟩, ?_, ?_, ?_, ?_⟩
  · exact (hstands n).rest_eq
  · exact (hstands n).position_le
  · exact (hstands n).position_le_next hne
  · exact (hstands n).position_lt_next hne
  · exact fun e he => (hstands n).position_next_of_ok hne he
  · exact fun m n e e' hm hn => Nat.le_antisymm (le_of_next_eq_ok hne hn hm) (le_of_next_eq_ok hne hm hn)
  · have hlower := le_position_after hne tokens.length
    have hupper := (hstands tokens.length).position_le
    rw [Nat.min_self] at hlower
    exact Nat.le_antisymm hupper hlower
  · intro m n hle hend
    have hlater := position_after_of_le hne hle hend
    exact ⟨hlater, (hstands n).next_of_position_eq hne hlater⟩
  · exact fun least rest depth hdepth => readBinaryWithin_eq depth least rest hdepth

end Parser

end DeskCalculator
