import DeskCalculator.Proofs.Expr.Place

/-!
# What the parser reads

The parser walks through the places of an expression (`readBinary_follows`): a reading that succeeds
has gone from a place that expects an operand to one of the same depth that expects an operator, and
one that misses a closing parenthesis has gone to the end of the tokens with a group still open.

A sentence of the grammar is read as its tree, whatever follows it that cannot belong to it
(`Derives.readsAs`). With the places this makes the parser exact: a list that is read has the shape
of an expression, hence is a sentence, hence is read as the tree of that sentence
(`ofTokens_eq_ok_iff_derives`).
-/

namespace DeskCalculator

/-! ## The parser follows the places -/

/-- A fault in the order of the tokens. -/
def Fault.IsSyntactic : Fault → Prop
  | emptyExpression | unexpectedToken _ _ | rootWithoutGroup _ | numberExpected _
  | endOfExpression | emptyParentheses | closingExpected _ => True
  | _ => False

/-- A reading that leads from one place to another, unless it ends with an error; the only error
other than a fault of the text is a group that is open at the end. -/
structure Reading.Follows {tokens : List Token} (r : Reading tokens) (p q : Place) : Prop where
  ok : ∀ e, r.outcome = .ok e → ∃ read, tokens = read ++ r.rest ∧ p.run read = some q
  error : ∀ err, r.outcome = .error err →
    (∃ fault : Fault, fault.IsSyntactic ∧ err = .invalid fault) ∨
      err = .mismatchedParentheses ∧ ∃ k, p.run tokens = some ⟨q.depth + k + 1, .operator⟩

namespace Reading.Follows

variable {tokens tail : List Token} {p q q' : Place}

theorem of_fault {fault : Fault} {rest : List Token} {h : rest <:+ tokens}
    (hfault : fault.IsSyntactic) : Follows ⟨.error (.invalid fault), rest, h⟩ p q :=
  ⟨nofun, fun _ herr => .inl ⟨fault, hfault, (Except.error.inj herr).symm⟩⟩

theorem of_ok {e : Expr} (read : List Token) {rest : List Token} {h : rest <:+ tokens}
    (htokens : tokens = read ++ rest) (hrun : p.run read = some q) :
    Follows ⟨.ok e, rest, h⟩ p q :=
  ⟨fun _ _ => ⟨read, htokens, hrun⟩, nofun⟩

theorem map {r : Reading tokens} (h : r.Follows p q) (f : Expr → Expr) :
    (r.map f).Follows p q := by
  obtain ⟨outcome, rest, hrest⟩ := r
  cases outcome with
  | ok e => exact ⟨fun _ _ => h.ok e rfl, nofun⟩
  | error e => exact ⟨nofun, fun err herr => h.error err herr⟩

theorem within {r : Reading tail} {q₀ : Place} (h : r.Follows q₀ q) (read : List Token)
    (htokens : tokens = read ++ tail) (hrun : p.run read = some q₀) (hsuffix : tail <:+ tokens) :
    (r.within hsuffix).Follows p q := by
  constructor
  · intro e he
    obtain ⟨more, hmoreTokens, hmore⟩ := h.ok e he
    refine ⟨read ++ more, ?_, ?_⟩
    · show tokens = read ++ more ++ r.rest
      rw [List.append_assoc, ← hmoreTokens]
      exact htokens
    · rw [Place.run_append_of_run hrun, hmore]
  · intro err herr
    rcases h.error err herr with hfault | ⟨rfl, k, hk⟩
    · exact .inl hfault
    · refine .inr ⟨rfl, k, ?_⟩
      rw [htokens, Place.run_append_of_run hrun, hk]

end Reading.Follows

theorem signRun_eq (tokens : List Token) : ∃ signs : List Operator,
    (∀ op ∈ signs, op.IsAdditive) ∧ tokens = signs.map .operator ++ (signRun tokens).2 := by
  fun_induction signRun tokens with
  | case1 tokens ih =>
    obtain ⟨signs, hsigns, heq⟩ := ih
    exact ⟨.add :: signs, by simpa [Operator.IsAdditive] using hsigns, by simp [← heq]⟩
  | case2 tokens negative rest h ih =>
    obtain ⟨signs, hsigns, heq⟩ := ih
    rw [h] at heq
    exact ⟨.subtract :: signs, by simpa [Operator.IsAdditive] using hsigns, by simp [← heq]⟩
  | case3 tokens => exact ⟨[], by simp, rfl⟩

-- The readings call each other, and so do the proofs that they follow the places; the measures are those by which
-- the readings end.
mutual

theorem readBinary_follows (least : Nat) (tokens : List Token) (d : Nat) :
    (readBinary least tokens).Follows ⟨d, .operand⟩ ⟨d, .operator⟩ := by
  have hoperand := readUnary_follows tokens d
  rw [readBinary]
  generalize readUnary tokens = reading at hoperand
  obtain ⟨outcome, rest, h⟩ := reading
  cases outcome with
  | error e => exact hoperand
  | ok left =>
    obtain ⟨read, htokens, hrun⟩ := hoperand.ok left rfl
    have hlength := h.length_le
    exact (readOperators_follows least left rest d).within _ htokens hrun h
termination_by 5 * tokens.length + 3
decreasing_by all_goals omega

theorem readOperators_follows (least : Nat) (left : Expr) (tokens : List Token) (d : Nat) :
    (readOperators least left tokens).Follows ⟨d, .operator⟩ ⟨d, .operator⟩ := by
  cases tokens with
  | nil =>
    rw [readOperators.eq_def]
    exact .of_ok [] rfl rfl
  | cons token tokens =>
    cases token with
    | operator op =>
      have hright := readBinary_follows (op.precedence + 1) tokens d
      rw [readOperators]
      split
      next => exact .of_ok [] rfl rfl
      next =>
        generalize readBinary (op.precedence + 1) tokens = reading at hright
        obtain ⟨outcome, rest, h⟩ := reading
        cases outcome with
        | error e => exact hright.within [.operator op] rfl rfl (List.suffix_cons _ _)
        | ok right =>
          obtain ⟨read, htokens, hrun⟩ := hright.ok right rfl
          have hall : Token.operator op :: tokens = .operator op :: read ++ rest :=
            congrArg (Token.operator op :: ·) htokens
          have hlength := h.length_le
          exact (readOperators_follows least (.binary left op right) rest d).within _ hall hrun _
    | _ =>
      rw [readOperators.eq_def]
      exact .of_ok [] rfl rfl
termination_by 5 * tokens.length
decreasing_by
  all_goals
    simp only [List.length_cons]
    omega

theorem readUnary_follows (tokens : List Token) (d : Nat) :
    (readUnary tokens).Follows ⟨d, .operand⟩ ⟨d, .operator⟩ := by
  obtain ⟨signs, hsigns, htokens⟩ := signRun_eq tokens
  have hlength := (signRun_suffix tokens).length_le
  have hoperand := (readPrimary_follows (signRun tokens).2 d).within _ htokens (Place.run_signs d hsigns)
    (signRun_suffix tokens)
  rw [readUnary]
  split
  next => exact hoperand.map _
  next => exact hoperand
termination_by 5 * tokens.length + 2
decreasing_by omega

theorem readPrimary_follows (tokens : List Token) (d : Nat) :
    (readPrimary tokens).Follows ⟨d, .operand⟩ ⟨d, .operator⟩ := by
  cases tokens with
  | nil =>
    rw [readPrimary]
    exact .of_fault trivial
  | cons token tokens =>
    cases token with
    | number value =>
      rw [readPrimary]
      exact .of_ok [.number value] rfl rfl
    | opening =>
      rw [readPrimary]
      exact (readGroup_follows tokens d).within [.opening] rfl rfl _
    | root =>
      cases tokens with
      | nil =>
        rw [readPrimary]
        exact .of_fault trivial
      | cons token tokens =>
        cases token with
        | opening =>
          rw [readPrimary]
          exact ((readGroup_follows tokens d).map .root).within [.root, .opening] rfl rfl _
        | _ =>
          rw [readPrimary.eq_def]
          exact .of_fault trivial
    | _ =>
      rw [readPrimary.eq_def]
      exact .of_fault trivial
termination_by 5 * tokens.length + 1
decreasing_by
  all_goals
    simp only [List.length_cons]
    omega

theorem readGroup_follows (tokens : List Token) (d : Nat) :
    (readGroup tokens).Follows ⟨d + 1, .operand⟩ ⟨d, .operator⟩ := by
  have hinner := readBinary_follows 0 tokens (d + 1)
  rw [readGroup.eq_def]
  split
  next => exact .of_fault trivial
  next =>
    generalize readBinary 0 tokens = reading at hinner
    obtain ⟨outcome, rest, h⟩ := reading
    cases outcome with
    | error e =>
      refine ⟨nofun, fun err herr => ?_⟩
      rcases hinner.error err herr with hfault | ⟨rfl, k, hk⟩
      · exact .inl hfault
      · exact .inr ⟨rfl, k + 1, by rw [hk, Nat.add_right_comm d 1 k]; rfl⟩
    | ok inner =>
      obtain ⟨read, htokens, hrun⟩ := hinner.ok inner rfl
      cases rest with
      | nil =>
        -- The inside has come to the end of the tokens, so the group is open there.
        refine ⟨nofun, fun err herr => .inr ⟨(Except.error.inj herr).symm, 0, ?_⟩⟩
        rw [htokens, List.append_nil, hrun]
      | cons token rest =>
        cases token with
        | closing =>
          refine .of_ok (read ++ [.closing]) ?_ ?_
          · rw [htokens]
            simp
          · rw [Place.run_append_of_run hrun]
            rfl
        | _ => exact .of_fault trivial
termination_by 5 * tokens.length + 4

end

/-! ## Sentences are read as their trees -/

/-- Tokens that do not start with an operator of a given precedence or a tighter one. -/
def NoTighter (least : Nat) (ts : List Token) : Prop :=
  ∀ op rest, ts = .operator op :: rest → op.precedence < least

theorem noTighter_of_lt_three {least : Nat} (h : 2 < least) (ts : List Token) :
    NoTighter least ts := by
  intro op rest _
  cases op <;> simp only [Operator.precedence] <;> omega

theorem noTighter_operator {op : Operator} {least : Nat} (h : op.precedence < least)
    (ts : List Token) : NoTighter least (.operator op :: ts) := by
  intro o rest heq
  simp only [List.cons.injEq, Token.operator.injEq] at heq
  rwa [← heq.1]

theorem noTighter_closing (least : Nat) (ts : List Token) : NoTighter least (.closing :: ts) :=
  nofun

/-- What a reading comes to and what it leaves. -/
def Reading.result {tokens : List Token} (r : Reading tokens) : Outcome Expr × List Token :=
  (r.outcome, r.rest)

theorem readOperators_of_noTighter {least : Nat} {tokens : List Token}
    (h : NoTighter least tokens) (left : Expr) :
    (readOperators least left tokens).result = (.ok left, tokens) := by
  rw [readOperators.eq_def]
  split
  next op tokens =>
    rw [if_pos (h op tokens rfl)]
    rfl
  next => rfl

theorem readBinary_of_readUnary {least : Nat} {tokens rest : List Token} {left : Expr}
    (h : (readUnary tokens).result = (.ok left, rest)) :
    (readBinary least tokens).result = (readOperators least left rest).result := by
  rw [readBinary]
  split
  next hread =>
    rw [hread] at h
    simp [Reading.result] at h
  next left' rest' hsuffix hread =>
    rw [hread] at h
    simp only [Reading.result, Prod.mk.injEq, Except.ok.injEq] at h
    obtain ⟨rfl, rfl⟩ := h
    rfl

theorem readOperators_of_readBinary {least : Nat} {op : Operator} {tokens rest : List Token}
    {left right : Expr} (hop : least ≤ op.precedence)
    (h : (readBinary (op.precedence + 1) tokens).result = (.ok right, rest)) :
    (readOperators least left (.operator op :: tokens)).result =
      (readOperators least (.binary left op right) rest).result := by
  rw [readOperators, if_neg (Nat.not_lt.2 hop)]
  split
  next hread =>
    rw [hread] at h
    simp [Reading.result] at h
  next right' rest' hsuffix hread =>
    rw [hread] at h
    simp only [Reading.result, Prod.mk.injEq, Except.ok.injEq] at h
    obtain ⟨rfl, rfl⟩ := h
    rfl

theorem signRun_append {signs : List Operator} (hsigns : ∀ op ∈ signs, op.IsAdditive)
    {tokens : List Token} (h : (signRun tokens) = (false, tokens)) :
    signRun (signs.map .operator ++ tokens) =
      (decide (signs.count .subtract % 2 = 1), tokens) := by
  induction signs with
  | nil => exact h
  | cons op signs ih =>
    have hrest := ih fun o ho => hsigns o (by simp [ho])
    rcases hsigns op (by simp) with rfl | rfl
    · rw [List.map_cons, List.cons_append, signRun, hrest]
      simp
    · rw [List.map_cons, List.cons_append, signRun, hrest]
      simp only [List.count_cons_self, Prod.mk.injEq, and_true]
      grind

theorem Derives.signRun_primary {ts : List Token} {e : Expr} (h : Derives .primary ts e)
    (rest : List Token) : signRun (ts ++ rest) = (false, ts ++ rest) := by
  cases h <;> rfl

theorem readUnary_of_readPrimary {signs : List Operator} (hsigns : ∀ op ∈ signs, op.IsAdditive)
    {tokens rest : List Token} {e : Expr} (hfirst : signRun tokens = (false, tokens))
    (h : (readPrimary tokens).result = (.ok e, rest)) :
    (readUnary (signs.map .operator ++ tokens)).result = (.ok (e.withSigns signs), rest) := by
  have hrun := signRun_append hsigns hfirst
  have hbehind : (signRun (signs.map .operator ++ tokens)).2 = tokens := by rw [hrun]
  rw [← hbehind] at h
  obtain ⟨houtcome, hrest⟩ := Prod.mk.inj h
  rw [readUnary, Expr.withSigns]
  by_cases hodd : signs.count .subtract % 2 = 1
  · rw [if_pos (by rw [hrun]; exact decide_eq_true hodd), if_pos hodd]
    simp only [Reading.result, Reading.map, Reading.within, houtcome, hrest]
    rfl
  · rw [if_neg (by rw [hrun]; simpa using hodd), if_neg hodd]
    simp only [Reading.result, Reading.within, houtcome, hrest]

theorem readBinary_closing (least : Nat) (tokens : List Token) :
    (readBinary least (.closing :: tokens)).outcome =
      .error (.invalid (.numberExpected .closing)) := by
  have hprimary : readPrimary (.closing :: tokens) =
      ⟨.error (.invalid (.numberExpected .closing)), tokens, List.suffix_cons _ _⟩ := by
    rw [readPrimary] <;> simp
  have hunary : (readUnary (.closing :: tokens)).outcome =
      .error (.invalid (.numberExpected .closing)) := by
    rw [readUnary]
    show (readPrimary (.closing :: tokens)).outcome = _
    rw [hprimary]
  rw [readBinary]
  split
  next hread => rwa [hread] at hunary
  next hread => simp [hread] at hunary

theorem readGroup_of_readBinary {tokens rest : List Token} {e : Expr}
    (h : (readBinary 0 tokens).result = (.ok e, .closing :: rest)) :
    (readGroup tokens).result = (.ok e, rest) := by
  have hfirst : ∀ more, tokens = .closing :: more → False := by
    rintro more rfl
    have hout := (Prod.mk.inj h).1
    rw [readBinary_closing] at hout
    simp at hout
  rw [readGroup]
  · generalize readBinary 0 tokens = reading at h
    obtain ⟨outcome, left, hleft⟩ := reading
    obtain ⟨rfl, rfl⟩ := Prod.mk.inj h
    rfl
  · exact hfirst

/-- How the sentences of a stratum are read in front of other tokens. Behind a product or a sum the
reading goes on with the operators that follow; a sum may not be followed by an operator that its
last product would take. -/
def ReadsAs : Stratum → List Token → Expr → Prop
  | .sum, ts, e => ∀ least rest, least ≤ 1 → NoTighter 2 rest →
      (readBinary least (ts ++ rest)).result = (readOperators least e rest).result
  | .product, ts, e => ∀ least rest, least ≤ 2 →
      (readBinary least (ts ++ rest)).result = (readOperators least e rest).result
  | .signed, ts, e => ∀ rest, (readUnary (ts ++ rest)).result = (.ok e, rest)
  | .primary, ts, e => ∀ rest, (readPrimary (ts ++ rest)).result = (.ok e, rest)

theorem Derives.readsAs {stratum : Stratum} {ts : List Token} {e : Expr}
    (h : Derives stratum ts e) : ReadsAs stratum ts e := by
  induction h with
  | @sum l r x y op _ hop _ ihl ihr =>
    intro least rest hleast hrest
    have hright : (readBinary (op.precedence + 1) (r ++ rest)).result = (.ok y, rest) := by
      rw [hop.precedence_eq, ihr 2 rest (Nat.le_refl _), readOperators_of_noTighter hrest]
    rw [List.append_assoc, List.cons_append, ihl least _ hleast
      (noTighter_operator (by rw [hop.precedence_eq]; decide) _)]
    exact readOperators_of_readBinary (by rw [hop.precedence_eq]; exact hleast) hright
  | ofProduct _ ih =>
    intro least rest hleast _
    exact ih least rest (by omega)
  | @product l r x y op _ hop _ ihl ihr =>
    intro least rest hleast
    have hright : (readBinary (op.precedence + 1) (r ++ rest)).result = (.ok y, rest) := by
      rw [readBinary_of_readUnary (ihr rest), hop.precedence_eq]
      exact readOperators_of_noTighter (noTighter_of_lt_three (by decide) _) _
    rw [List.append_assoc, List.cons_append, ihl least _ hleast]
    exact readOperators_of_readBinary (by rw [hop.precedence_eq]; exact hleast) hright
  | ofSigned _ ih =>
    intro least rest _
    exact readBinary_of_readUnary (ih rest)
  | signed hsigns hprimary ih =>
    intro rest
    rw [List.append_assoc]
    exact readUnary_of_readPrimary hsigns (hprimary.signRun_primary rest) (ih rest)
  | number value =>
    intro rest
    rw [List.cons_append, List.nil_append, readPrimary]
    rfl
  | @group ts e _ ih =>
    intro rest
    have hinside : (readBinary 0 (ts ++ .closing :: rest)).result = (.ok e, .closing :: rest) := by
      rw [ih 0 _ (by decide) (noTighter_closing _ _)]
      exact readOperators_of_noTighter (noTighter_closing _ _) _
    rw [List.cons_append, List.append_assoc, readPrimary]
    exact readGroup_of_readBinary hinside
  | @root ts e _ ih =>
    intro rest
    have hinside : (readBinary 0 (ts ++ .closing :: rest)).result = (.ok e, .closing :: rest) := by
      rw [ih 0 _ (by decide) (noTighter_closing _ _)]
      exact readOperators_of_noTighter (noTighter_closing _ _) _
    obtain ⟨houtcome, hrest⟩ := Prod.mk.inj (readGroup_of_readBinary hinside)
    rw [List.cons_append, List.cons_append, List.append_assoc, readPrimary]
    simp only [Reading.result, Reading.map, Reading.within, List.cons_append, List.nil_append,
      houtcome, hrest]
    rfl

/-! ## Whole expressions -/

theorem Derives.ne_nil {ts : List Token} {e : Expr} (h : Derives .sum ts e) : ts ≠ [] := by
  rintro rfl
  simpa using h.run_eq 0

theorem ofTokens_of_ne_nil {ts : List Token} (h : ts ≠ []) :
    Expr.ofTokens ts =
      match (readBinary 0 ts).outcome, (readBinary 0 ts).rest with
      | .ok _, token :: rest =>
        .error (.invalid (.unexpectedToken token (ts.length - (rest.length + 1))))
      | outcome, _ => outcome := by
  have hsome : ¬ ((Parser.ofTokens ts).position = 0 ∧ (Parser.ofTokens ts).rest = []) :=
    fun hempty => h hempty.2
  rw [Expr.ofTokens, Parser.next, if_neg hsome]
  show (match (readBinary 0 ts).outcome, (readBinary 0 ts).rest with
    | .ok _, token :: _ => _
    | outcome, _ => outcome) = _
  split
  next hout hrest => simp [hrest, Parser.ofTokens]
  next => rfl

theorem ofTokens_of_derives {ts : List Token} {e : Expr} (h : Derives .sum ts e) :
    Expr.ofTokens ts = .ok e := by
  have hnone : NoTighter 2 ([] : List Token) := nofun
  have hread : (readBinary 0 ts).result = (.ok e, []) := by
    have hsum := h.readsAs 0 [] (by decide) hnone
    rw [List.append_nil] at hsum
    rw [hsum]
    exact readOperators_of_noTighter (fun _ _ hcons => by simp at hcons) e
  obtain ⟨houtcome, hrest⟩ := Prod.mk.inj hread
  rw [ofTokens_of_ne_nil h.ne_nil, houtcome, hrest]

theorem wellShaped_of_ofTokens {ts : List Token} {e : Expr} (h : Expr.ofTokens ts = .ok e) :
    WellShaped ts := by
  by_cases hne : ts = []
  · rw [hne] at h
    cases h
  · rw [ofTokens_of_ne_nil hne] at h
    split at h
    next => cases h
    next hmore =>
      obtain ⟨read, htokens, hrun⟩ := (readBinary_follows 0 ts 0).ok e h
      cases hrest : (readBinary 0 ts).rest with
      | nil =>
        rw [hrest, List.append_nil] at htokens
        rw [htokens]
        exact hrun
      | cons token rest => exact absurd hrest (hmore e token rest h)

theorem ofTokens_eq_ok_iff_derives {ts : List Token} {e : Expr} :
    Expr.ofTokens ts = .ok e ↔ Derives .sum ts e := by
  constructor
  · intro h
    obtain ⟨e', he'⟩ := wellShaped_iff_derives.1 (wellShaped_of_ofTokens h)
    rw [ofTokens_of_derives he'] at h
    rwa [← Except.ok.inj h]
  · exact ofTokens_of_derives

/-- The only error that is no fault of the text is that of a group that is open at the end. -/
theorem ofTokens_eq_error {ts : List Token} {err : CalcError} (h : Expr.ofTokens ts = .error err) :
    (∃ fault : Fault, fault.IsSyntactic ∧ err = .invalid fault) ∨
      err = .mismatchedParentheses ∧ ∃ k, Place.start.run ts = some ⟨k + 1, .operator⟩ := by
  by_cases hne : ts = []
  · rw [hne] at h
    exact .inl ⟨.emptyExpression, trivial, (Except.error.inj h).symm⟩
  · rw [ofTokens_of_ne_nil hne] at h
    split at h
    next =>
      refine .inl ⟨_, ?_, (Except.error.inj h).symm⟩
      trivial
    next =>
      rcases (readBinary_follows 0 ts 0).error err h with hfault | ⟨hmissing, k, hk⟩
      · exact .inl hfault
      · exact .inr ⟨hmissing, k, by rw [Place.start, hk, Nat.zero_add]⟩

/-- **The parser is exact for the grammar**: it accepts the sentences and no other token list, a
sentence has one tree, and that tree is what the parser builds. -/
theorem parser_exact (ts : List Token) :
    (∀ e, (Parser.ofTokens ts).next.1 = .ok e ↔ Derives .sum ts e) ∧
      (∀ e e', Derives .sum ts e → Derives .sum ts e' → e = e') ∧
      ((∀ e, ¬ Derives .sum ts e) ↔ ∃ err, (Parser.ofTokens ts).next.1 = .error err) := by
  have hexact : ∀ e, Expr.ofTokens ts = .ok e ↔ Derives .sum ts e :=
    fun _ => ofTokens_eq_ok_iff_derives
  refine ⟨hexact, ?_, ?_⟩
  · intro e e' he he'
    exact Except.ok.inj (((hexact e).2 he).symm.trans ((hexact e').2 he'))
  · show _ ↔ ∃ err, Expr.ofTokens ts = .error err
    simp only [← hexact]
    cases Expr.ofTokens ts <;> simp

end DeskCalculator
