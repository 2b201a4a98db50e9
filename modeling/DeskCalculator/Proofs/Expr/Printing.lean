import DeskCalculator.Proofs.Expr.Rendering

/-!
# Expressions written with few parentheses

`Expr.print` writes an expression with the parentheses that precedence asks for and no others: around a
left operand that binds less tightly than the operator, around a right operand that does not bind more
tightly, and around what a minus sign would otherwise share with its neighbours. With any blanks
between the tokens (`Spaced`) the text is parsed as the expression itself (`parse_print`).

The tokens of an expression are a sentence of the stratum that the expression belongs to
(`derives_print`), and its operands are sentences of the strata that the grammar expects of them, with
or without parentheses (`derives_parenthesize`). In the text a mark stands between any two runs of
characters, so that the tokens are found again wherever there are blanks (`readsBack_print`).
-/

namespace DeskCalculator

/-! ## Token lists as texts -/

/-- The text of a token in an expression. -/
def Token.text : Token → Text
  | number value => value.plain
  | operator op => [op.symbol]
  | opening => ['(']
  | closing => [')']
  | root => rootWord

/-- The text is made of the tokens, with any blanks around and between them. -/
inductive Spaced : List Token → Text → Prop
  | nil {blanks : Text} : Text.IsBlanks blanks → Spaced [] blanks
  | cons {token : Token} {ts : List Token} {blanks t : Text} :
      Text.IsBlanks blanks → Spaced ts t → Spaced (token :: ts) (blanks ++ token.text ++ t)

theorem spaced_flatMap {pieces : List (Text × Token)} (h : ∀ p ∈ pieces, Text.IsBlanks p.1) :
    Spaced (pieces.map Prod.snd) (pieces.flatMap fun p => p.1 ++ p.2.text) := by
  induction pieces with
  | nil => exact .nil Text.isBlanks_nil
  | cons p pieces ih =>
    rw [List.map_cons, List.flatMap_cons]
    exact .cons (h p (by simp)) (ih fun q hq => h q (by simp [hq]))

theorem Spaced.exists_of_append_cons {l r : List Token} {token : Token} {t : Text}
    (h : Spaced (l ++ token :: r) t) :
    ∃ u v, Spaced l u ∧ Spaced r v ∧ t = u ++ token.text ++ v := by
  induction l generalizing t with
  | nil =>
    obtain ⟨⟩ | ⟨hblanks, ht⟩ := h
    exact ⟨_, _, .nil hblanks, ht, rfl⟩
  | cons first l ih =>
    obtain ⟨⟩ | ⟨hblanks, ht⟩ := h
    obtain ⟨u, v, hu, hv, rfl⟩ := ih ht
    exact ⟨_, v, .cons hblanks hu, hv, by simp⟩

/-- The tokens are found again in their texts. -/
def ReadsBack (ts : List Token) : Prop := ∀ t, Spaced ts t → tokenize t = .ok ts

theorem readsBack_nil : ReadsBack [] := by
  rintro t ⟨hblanks⟩
  rw [tokenize_eq_mapM, lexemes_of_isBlanks hblanks]
  rfl

theorem readsBack_singleton {token : Token} (h : tokenize token.text = .ok [token]) :
    ReadsBack [token] := by
  intro t ht
  obtain ⟨⟩ | ⟨hblanks, ⟨hend⟩⟩ := ht
  rw [tokenize_blanks_append hblanks hend, h]

theorem readsBack_number (m : Magnitude) : ReadsBack [.number (.finite false m)] := by
  have hread := literal?_plain (x := .finite false m) rfl
  rw [unsignedZero_of_clear_sign] at hread
  exact readsBack_singleton (tokenize_of_isUnsigned (isUnsigned_plain rfl rfl) hread)

theorem readsBack_root : ReadsBack [.root] := readsBack_singleton (by decide +kernel)

/-- Between two lists that are found again a mark leaves them apart. -/
theorem ReadsBack.append_mark {l r : List Token} (hl : ReadsBack l) (hr : ReadsBack r)
    {token : Token} {c : Char} (htext : token.text = [c]) (hmark : IsMark c)
    (hcons : ∀ t, tokenize (c :: t) = (tokenize t).map (token :: ·)) :
    ReadsBack (l ++ token :: r) := by
  intro t ht
  obtain ⟨u, v, hu, hv, rfl⟩ := ht.exists_of_append_cons
  rw [htext, List.append_assoc, List.singleton_append,
    tokenize_append_eq_ok_iff (apart_cons_of_isMark u hmark v), hcons, hr v hv]
  exact ⟨l, token :: r, hl u hu, rfl, rfl⟩

theorem ReadsBack.append_operator {l r : List Token} (hl : ReadsBack l) (hr : ReadsBack r)
    (op : Operator) : ReadsBack (l ++ .operator op :: r) :=
  hl.append_mark hr rfl (isMark_symbol op) (tokenize_symbol_cons op)

theorem ReadsBack.group {l ts : List Token} (hl : ReadsBack l) (h : ReadsBack ts) :
    ReadsBack (l ++ .opening :: (ts ++ [.closing])) :=
  hl.append_mark (h.append_mark readsBack_nil rfl (by decide) tokenize_closing_cons) rfl (by decide)
    tokenize_opening_cons

/-! ## Printing -/

/-- Tokens in parentheses, if these are needed. -/
def parenthesize (needed : Bool) (ts : List Token) : List Token :=
  if needed then .opening :: (ts ++ [.closing]) else ts

theorem ReadsBack.parenthesize {ts : List Token} (h : ReadsBack ts) (needed : Bool) :
    ReadsBack (parenthesize needed ts) := by
  cases needed with
  | false => exact h
  | true => exact readsBack_nil.group h

namespace Expr

/-- Whether the expression is an operation that binds less tightly than the operator. -/
def bindsLooser (op : Operator) : Expr → Bool
  | binary _ o _ => o.precedence < op.precedence
  | _ => false

/-- Whether the expression is an operation that binds less tightly than the operator, or as tightly. -/
def bindsNoTighter (op : Operator) : Expr → Bool
  | binary _ o _ => o.precedence ≤ op.precedence
  | _ => false

/-- Whether the expression is an operation or a negation. -/
def isOperation : Expr → Bool
  | binary .. | negate _ => true
  | _ => false

/-- The tokens of the expression, with parentheses where precedence asks for them. -/
def print : Expr → List Token
  | number value => [.number value]
  | negate operand => .operator .subtract :: parenthesize operand.isOperation operand.print
  | binary left op right =>
    parenthesize (left.bindsLooser op) left.print ++
      .operator op :: parenthesize (right.bindsNoTighter op) right.print
  | root operand => .root :: .opening :: (operand.print ++ [.closing])

end Expr

theorem readsBack_print {e : Expr} (he : e.HasClearSigns) : ReadsBack e.print := by
  induction e with
  | number value =>
    obtain ⟨m, rfl⟩ := he
    exact readsBack_number m
  | negate operand ih => exact readsBack_nil.append_operator ((ih he).parenthesize _) .subtract
  | binary left op right ihl ihr =>
    exact ((ihl he.1).parenthesize _).append_operator ((ihr he.2).parenthesize _) op
  | root operand ih => exact readsBack_root.group (ih he)

/-! ## Strata -/

namespace Stratum

/-- The place of a stratum in their order. -/
def rank : Stratum → Nat
  | sum => 0
  | product => 1
  | signed => 2
  | primary => 3

/-- The stratum of the operations with an operator. -/
def ofOperator : Operator → Stratum
  | .add | .subtract => sum
  | .multiply | .divide => product

end Stratum

theorem Derives.loosen {s s' : Stratum} {ts : List Token} {e : Expr} (h : Derives s ts e)
    (hrank : s'.rank ≤ s.rank) : Derives s' ts e := by
  have hproduct (h : Derives .signed ts e) : Derives .product ts e := .ofSigned h
  have hsum (h : Derives .product ts e) : Derives .sum ts e := .ofProduct h
  cases s with
  | sum =>
    cases s' with
    | sum => exact h
    | product | signed | primary => simp [Stratum.rank] at hrank
  | product =>
    cases s' with
    | sum => exact hsum h
    | product => exact h
    | signed | primary => simp [Stratum.rank] at hrank
  | signed =>
    cases s' with
    | sum => exact hsum (hproduct h)
    | product => exact hproduct h
    | signed => exact h
    | primary => simp [Stratum.rank] at hrank
  | primary =>
    cases s' with
    | sum => exact hsum (hproduct h.ofPrimary)
    | product => exact hproduct h.ofPrimary
    | signed => exact h.ofPrimary
    | primary => exact h

/-- The stratum that an expression belongs to. -/
def Expr.stratum : Expr → Stratum
  | number _ | root _ => .primary
  | negate _ => .signed
  | binary _ op _ => .ofOperator op

theorem derives_parenthesize {e : Expr} {ts : List Token} (h : Derives e.stratum ts e) {s : Stratum}
    {needed : Bool} (hrank : needed = false → s.rank ≤ e.stratum.rank) :
    Derives s (parenthesize needed ts) e := by
  cases needed with
  | false => exact h.loosen (hrank rfl)
  | true =>
    have hsum : Derives .sum ts e := h.loosen (Nat.zero_le _)
    have hprimary : s.rank ≤ Stratum.primary.rank := by cases s <;> decide
    exact (Derives.group hsum).loosen hprimary

theorem rank_ofOperator (op : Operator) : (Stratum.ofOperator op).rank + 1 = op.precedence := by
  cases op <;> rfl

theorem binary_or_le_rank (e : Expr) :
    (∃ left op right, e = .binary left op right) ∨
      2 ≤ e.stratum.rank := by
  cases e with
  | number | root => exact .inr (Nat.le_succ 2)
  | negate => exact .inr (Nat.le_refl 2)
  | binary left op right => exact .inl ⟨left, op, right, rfl⟩

theorem rank_ofOperator_le (op : Operator) : (Stratum.ofOperator op).rank ≤ 1 := by
  cases op <;> decide

theorem rank_le_of_not_bindsLooser {e : Expr} {op : Operator} (h : e.bindsLooser op = false) :
    (Stratum.ofOperator op).rank ≤ e.stratum.rank := by
  rcases binary_or_le_rank e with ⟨left, o, right, rfl⟩ | hrank
  · have hop := rank_ofOperator op
    have ho := rank_ofOperator o
    simp only [Expr.bindsLooser, decide_eq_false_iff_not] at h
    rw [Expr.stratum]
    omega
  · have hop := rank_ofOperator_le op
    omega

theorem rank_lt_of_not_bindsNoTighter {e : Expr} {op : Operator} (h : e.bindsNoTighter op = false) :
    (Stratum.ofOperator op).rank + 1 ≤ e.stratum.rank := by
  rcases binary_or_le_rank e with ⟨left, o, right, rfl⟩ | hrank
  · have hop := rank_ofOperator op
    have ho := rank_ofOperator o
    simp only [Expr.bindsNoTighter, decide_eq_false_iff_not] at h
    rw [Expr.stratum]
    omega
  · have hop := rank_ofOperator_le op
    omega

theorem rank_of_not_isOperation {e : Expr} (h : e.isOperation = false) :
    Stratum.primary.rank ≤ e.stratum.rank := by
  cases e with
  | number | root => exact Nat.le_refl _
  | negate | binary => cases h

/-- The tokens are a sentence of the stratum of the expression, and the expression is its tree. -/
theorem derives_print (e : Expr) : Derives e.stratum e.print e := by
  induction e with
  | number value => exact .number value
  | negate operand ih =>
    have hsigns : ∀ op ∈ [Operator.subtract], op.IsAdditive := by simp [Operator.IsAdditive]
    exact .signed hsigns (derives_parenthesize ih rank_of_not_isOperation)
  | binary left op right ihl ihr =>
    have hleft : Derives (.ofOperator op) _ left := derives_parenthesize ihl rank_le_of_not_bindsLooser
    have hright {s : Stratum} (hs : s.rank = (Stratum.ofOperator op).rank + 1) :
        Derives s (parenthesize (right.bindsNoTighter op) right.print) right :=
      derives_parenthesize ihr fun h => hs ▸ rank_lt_of_not_bindsNoTighter h
    cases op with
    | add => exact .sum hleft (.inl rfl) (hright rfl)
    | subtract => exact .sum hleft (.inr rfl) (hright rfl)
    | multiply => exact .product hleft (.inl rfl) (hright rfl)
    | divide => exact .product hleft (.inr rfl) (hright rfl)
  | root operand ih =>
    have hsum : Derives .sum operand.print operand := ih.loosen (Nat.zero_le _)
    exact .root hsum

/-- **An expression is parsed from its tokens, whatever blanks stand between them.** -/
theorem parse_print (e : Expr) (t : Text) (he : e.HasClearSigns) (ht : Spaced e.print t) :
    Expr.parse t = .ok e := by
  have hsum : Derives .sum e.print e := (derives_print e).loosen (Nat.zero_le _)
  rw [Expr.parse, readsBack_print he t ht]
  exact ofTokens_of_derives hsum

/-- A difference taken away, and two signs before a factor, in `1 - (1 -1) -- 1*-( -1)`. -/
theorem parse_print_signs :
    let one : Expr := .number (.finite false ⟨4607182418800017408, by decide⟩)
    let e := Expr.binary (.binary one .subtract (.binary one .subtract one)) .subtract
      (.binary (.negate one) .multiply (.negate (.negate one)))
    e.HasClearSigns ∧ Spaced e.print "1 - (1 -1) -- 1*-( -1)".toList ∧
      Expr.parse "1 - (1 -1) -- 1*-( -1)".toList = .ok e := by
  intro one e
  have he : e.HasClearSigns := ⟨⟨⟨_, rfl⟩, ⟨_, rfl⟩, ⟨_, rfl⟩⟩, ⟨_, rfl⟩, ⟨_, rfl⟩⟩
  let number : Token := .number (.finite false ⟨4607182418800017408, by decide⟩)
  let pieces : List (Text × Token) :=
    [([], number), ([' '], .operator .subtract), ([' '], .opening), ([], number),
      ([' '], .operator .subtract), ([], number), ([], .closing), ([' '], .operator .subtract),
      ([], .operator .subtract), ([' '], number), ([], .operator .multiply),
      ([], .operator .subtract), ([], .opening), ([' '], .operator .subtract), ([], number),
      ([], .closing)]
  have hspaced : Spaced e.print (pieces.flatMap fun p => p.1 ++ p.2.text) :=
    @spaced_flatMap pieces (by decide)
  have htext : (pieces.flatMap fun p => p.1 ++ p.2.text) = "1 - (1 -1) -- 1*-( -1)".toList := by
    decide +kernel
  rw [htext] at hspaced
  exact ⟨he, hspaced, parse_print e _ he hspaced⟩

end DeskCalculator
