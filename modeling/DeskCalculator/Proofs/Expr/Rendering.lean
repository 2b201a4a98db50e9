import DeskCalculator.Evaluator.Spelling
import DeskCalculator.Proofs.Decimal.ReadBack
import DeskCalculator.Proofs.Expr.Reading
import DeskCalculator.Proofs.Parens.Balance
import DeskCalculator.Proofs.Token.Inventory

/-!
# Expressions written with all parentheses

`Expr.render` writes an expression with a pair of parentheses for each operation. The text is in
normal form (`normalize_render`), it is parsed as the expression itself (`parse_render`), and its
parentheses match wherever it stands (`neutral_render`).
-/

namespace DeskCalculator

open Literal (isNumeral)

namespace Expr

/-- The expression with parentheses around each operation. -/
def render : Expr → Text
  | number value => value.plain
  | negate operand => '(' :: '-' :: (operand.render ++ [')'])
  | binary left op right => '(' :: (left.render ++ op.symbol :: (right.render ++ [')']))
  | root operand => Token.rootWord ++ '(' :: (operand.render ++ [')'])

/-- Every number is finite and its sign is clear. -/
def HasClearSigns : Expr → Prop
  | number value => ∃ magnitude, value = .finite false magnitude
  | negate operand | root operand => operand.HasClearSigns
  | binary left _ right => left.HasClearSigns ∧ right.HasClearSigns

end Expr

theorem isFinite_eval {e : Expr} (he : e.HasClearSigns) {x : Binary64} (h : e.eval = .ok x) :
    x.isFinite = true := by
  induction e generalizing x with
  | number value =>
    obtain ⟨m, rfl⟩ := he
    obtain rfl := Except.ok.inj h
    rfl
  | negate operand ih =>
    obtain ⟨y, hy, h⟩ := bind_eq_ok_iff.1 h
    obtain rfl := Except.ok.inj h
    rw [Binary64.isFinite_neg]
    exact ih he hy
  | binary left op right =>
    obtain ⟨y, -, h⟩ := bind_eq_ok_iff.1 h
    obtain ⟨z, -, h⟩ := bind_eq_ok_iff.1 h
    exact isFinite_of_apply h
  | root operand =>
    obtain ⟨y, -, h⟩ := bind_eq_ok_iff.1 h
    exact isFinite_of_squareRoot h

/-! ## Characters -/

theorem isGraphic_of_isUnsigned {t : Text} (h : Literal.isUnsigned t = true) : Text.IsGraphic t := by
  intro c hc
  have hrange := toNat_of_isNumeral (Literal.isNumeral_of_isUnsigned h hc)
  omega

theorem isGraphic_of_ofText? {t : Text} {l : Literal} (h : Literal.ofText? t = some l) :
    Text.IsGraphic t := by
  obtain ⟨body, hbody, -, ⟨rfl, -⟩ | ⟨rfl, -⟩ | ⟨rfl, -⟩⟩ := Literal.exists_of_ofText? h
  · exact isGraphic_of_isUnsigned hbody
  · exact (isGraphic_of_isUnsigned hbody).cons (by decide)
  · exact (isGraphic_of_isUnsigned hbody).cons (by decide)

theorem isGraphic_of_literal? {t : Text} {x : Binary64} (h : literal? t = .ok (some x)) :
    Text.IsGraphic t := by
  obtain ⟨l, hl, -⟩ := literal?_eq_ok_some_iff.1 h
  exact isGraphic_of_ofText? hl

theorem isGraphic_plain {x : Binary64} (hx : x.isFinite = true) : Text.IsGraphic x.plain :=
  isGraphic_of_literal? (literal?_plain hx)

theorem isGraphic_symbol (op : Operator) : 32 < op.symbol.toNat ∧ op.symbol.toNat < 127 := by
  cases op <;> decide

theorem isGraphic_render {e : Expr} (he : e.HasClearSigns) : Text.IsGraphic e.render := by
  have hclosing : Text.IsGraphic [')'] := Text.isGraphic_nil.cons (by decide)
  induction e with
  | number value =>
    obtain ⟨m, rfl⟩ := he
    exact isGraphic_plain rfl
  | negate operand ih => exact (((ih he).append hclosing).cons (by decide)).cons (by decide)
  | binary left op right ihl ihr =>
    have hright := ((ihr he.2).append hclosing).cons (isGraphic_symbol op)
    exact ((ihl he.1).append hright).cons (by decide)
  | root operand ih =>
    have hword : Text.IsGraphic Token.rootWord := by decide
    exact hword.append (((ih he).append hclosing).cons (by decide))

theorem replaceAll_of_not_mem {c : Char} {pattern replacement t : Text} (h : c ∉ t) :
    Text.replaceAll (c :: pattern) replacement t = t := by
  unfold Text.replaceAll
  induction t with
  | nil => rfl
  | cons d t ih =>
    have hd : (c == d) = false := by
      rw [beq_eq_false_iff_ne]
      rintro rfl
      simp at h
    rw [Text.replaceFrom]
    simp only [List.isPrefixOf, hd, Bool.false_and]
    show d :: Text.replaceFrom (c :: pattern) replacement 0 t = d :: t
    rw [ih fun hmem => h (List.mem_cons_of_mem _ hmem)]

theorem normalize_of_not_mem {t : Text} (htimes : '×' ∉ t) (hover : '÷' ∉ t) (hroot : '√' ∉ t) :
    normalize t = Text.trim t := by
  simp only [normalize, spellings, List.foldl_cons, List.foldl_nil]
  rw [replaceAll_of_not_mem htimes, replaceAll_of_not_mem hover, replaceAll_of_not_mem hroot,
    replaceAll_of_not_mem hroot]

theorem normalize_of_isGraphic {t : Text} (h : Text.IsGraphic t) : normalize t = t := by
  have hnot {c : Char} (hc : 127 ≤ c.toNat) : c ∉ t := Text.not_mem_of_isGraphic h hc
  rw [normalize_of_not_mem (hnot (by decide)) (hnot (by decide)) (hnot (by decide)),
    Text.trim_of_isGraphic h]

theorem normalize_render {e : Expr} (he : e.HasClearSigns) : normalize e.render = e.render :=
  normalize_of_isGraphic (isGraphic_render he)

theorem ofText?_render {e : Expr} (he : ∀ value, e ≠ .number value) :
    Literal.ofText? e.render = none := by
  have hopening : '(' ∈ e.render := by
    cases e with
    | number value => exact absurd rfl (he value)
    | negate operand => simp [Expr.render]
    | binary left op right => simp [Expr.render]
    | root operand => simp [Expr.render]
  exact Literal.ofText?_of_mem hopening (by decide) (by decide) (by decide)

/-! ## Parentheses -/

theorem parens_not_mem_of_literal? {t : Text} {x : Binary64} (h : literal? t = .ok (some x)) :
    '(' ∉ t ∧ ')' ∉ t := by
  obtain ⟨l, hl, -⟩ := literal?_eq_ok_some_iff.1 h
  constructor
  · intro hmem
    rw [Literal.ofText?_of_mem hmem (by decide) (by decide) (by decide)] at hl
    cases hl
  · intro hmem
    rw [Literal.ofText?_of_mem hmem (by decide) (by decide) (by decide)] at hl
    cases hl

theorem opening_not_mem_plain (x : Binary64) : '(' ∉ x.plain :=
  Binary64.not_mem_plain (by decide) (by decide)

theorem closing_not_mem_plain (x : Binary64) : ')' ∉ x.plain :=
  Binary64.not_mem_plain (by decide) (by decide)

theorem neutral_plain (x : Binary64) : Neutral x.plain :=
  neutral_of_not_mem (opening_not_mem_plain x) (closing_not_mem_plain x)

theorem neutral_symbol (op : Operator) : Neutral [op.symbol] := by
  cases op <;> exact neutral_of_not_mem (by decide) (by decide)

theorem neutral_render (e : Expr) : Neutral e.render := by
  induction e with
  | number value => exact neutral_plain value
  | negate operand ih => exact ((neutral_symbol .subtract).append ih).group
  | binary left op right ihl ihr =>
    have hinside := (ihl.append ((neutral_symbol op).append ihr)).group
    simpa [Expr.render] using hinside
  | root operand ih => exact (neutral_of_not_mem (by decide) (by decide)).append ih.group

/-! ## Tokens -/

theorem unsignedZero_of_clear_sign (m : Magnitude) :
    (Binary64.finite false m).unsignedZero = .finite false m := by
  rcases Binary64.isZero_or_unsignedZero_eq (.finite false m) with ⟨negative, h⟩ | h
  · obtain ⟨rfl, rfl⟩ := Binary64.finite.inj h
    rfl
  · exact h

theorem exists_tokenize_render {e : Expr} (he : e.HasClearSigns) :
    ∃ ts, tokenize e.render = .ok ts ∧ Derives .primary ts e := by
  have hclose {t : Text} {ts : List Token} (h : tokenize t = .ok ts) :
      tokenize (t ++ [')']) = .ok (ts ++ [.closing]) := by
    rw [tokenize_append_eq_ok_iff (apart_cons_of_isMark t (by decide) [])]
    exact ⟨ts, [.closing], h, by rw [tokenize_closing_cons, tokenize_nil]; rfl, rfl⟩
  induction e with
  | number value =>
    obtain ⟨m, rfl⟩ := he
    have htokens := tokenize_of_isUnsigned (isUnsigned_plain rfl rfl)
      (literal?_plain (x := .finite false m) rfl)
    rw [unsignedZero_of_clear_sign] at htokens
    exact ⟨_, htokens, .number _⟩
  | negate operand ih =>
    obtain ⟨ts, hts, hderives⟩ := ih he
    have hminus := tokenize_symbol_cons .subtract (operand.render ++ [')'])
    rw [hclose hts, show Operator.subtract.symbol = '-' from rfl] at hminus
    refine ⟨_, (tokenize_opening_cons _).trans (by rw [hminus]; rfl), ?_⟩
    have hsigns : ∀ op ∈ [Operator.subtract], op.IsAdditive := by simp [Operator.IsAdditive]
    exact .group (.ofProduct (.ofSigned (.signed hsigns hderives)))
  | binary left op right ihl ihr =>
    obtain ⟨ls, hls, hleft⟩ := ihl he.1
    obtain ⟨rs, hrs, hright⟩ := ihr he.2
    have hsymbol := tokenize_symbol_cons op (right.render ++ [')'])
    rw [hclose hrs] at hsymbol
    have hinside : tokenize (left.render ++ op.symbol :: (right.render ++ [')'])) =
        .ok (ls ++ .operator op :: rs ++ [.closing]) := by
      rw [tokenize_append_eq_ok_iff (apart_cons_of_isMark _ (isMark_symbol op) _)]
      exact ⟨ls, _, hls, hsymbol, by simp⟩
    refine ⟨_, (tokenize_opening_cons _).trans (by rw [hinside]; rfl), .group ?_⟩
    rcases op.isAdditive_or_isMultiplicative with hop | hop
    · exact .sum (.ofProduct (.ofSigned hleft.ofPrimary)) hop (.ofSigned hright.ofPrimary)
    · exact .ofProduct (.product (.ofSigned hleft.ofPrimary) hop hright.ofPrimary)
  | root operand ih =>
    obtain ⟨ts, hts, hderives⟩ := ih he
    have hopening := tokenize_opening_cons (operand.render ++ [')'])
    rw [hclose hts] at hopening
    refine ⟨.root :: .opening :: (ts ++ [.closing]), ?_,
      .root (.ofProduct (.ofSigned hderives.ofPrimary))⟩
    rw [Expr.render, tokenize_append_eq_ok_iff (apart_cons_of_isMark _ (by decide) _)]
    exact ⟨[.root], _, by decide +kernel, hopening, rfl⟩

/-- **An expression is parsed from its text.** -/
theorem parse_render {e : Expr} (he : e.HasClearSigns) : Expr.parse e.render = .ok e := by
  obtain ⟨ts, hts, hderives⟩ := exists_tokenize_render he
  rw [Expr.parse, hts]
  exact ofTokens_of_derives (.ofProduct (.ofSigned hderives.ofPrimary))

end DeskCalculator
