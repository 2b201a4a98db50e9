import DeskCalculator.Proofs.Binary64.Whole
import DeskCalculator.Proofs.Expr.Reading
import DeskCalculator.Proofs.Expr.Rendering
import DeskCalculator.Proofs.Reduction.Parens

/-!
# Additive expressions

An additive expression is built from whole numbers, sums, differences and groups, and is written with
any blanks between its tokens (`Additive.text`). What it stands for is a whole number
(`Additive.value`), which lies between the sum of its numbers (`Additive.total`) and its opposite.

The tokens of the text are those of an expression with the same shape, and as long as the sum of the
numbers is small that expression has the value without any rounding (`Additive.exists_tokenize`).
-/

namespace DeskCalculator

/-- An additive expression as it is written, with the blanks between its tokens. -/
inductive Additive where
  | number (digits : Text)
  | group (before : Text) (inner : Additive) (behind : Text)
  | binary (left : Additive) (before : Text) (op : Operator) (behind : Text) (right : Additive)
  deriving DecidableEq

namespace Additive

def text : Additive → Text
  | number digits => digits
  | group before inner behind => '(' :: (before ++ inner.text ++ behind ++ [')'])
  | binary left before op behind right => left.text ++ before ++ op.symbol :: (behind ++ right.text)

/-- The whole number that the expression stands for. -/
def value : Additive → Int
  | number digits => Nat.ofDigitChars 10 digits 0
  | group _ inner _ => inner.value
  | binary left _ op _ right => op.onWhole left.value right.value

/-- The sum of the numbers in the expression. -/
def total : Additive → Nat
  | number digits => Nat.ofDigitChars 10 digits 0
  | group _ inner _ => inner.total
  | binary left _ _ _ right => left.total + right.total

/-- Whether the expression is a number or a group. -/
def isOperand : Additive → Bool
  | number _ | group .. => true
  | binary .. => false

/-- Numbers have digits, only blanks stand between the tokens, and the operators are those of sums, of
which the left operand is the longer one. -/
def WellFormed : Additive → Prop
  | number digits => digits ≠ [] ∧ digits.all Char.isDigit = true
  | group before inner behind => Text.IsBlanks before ∧ inner.WellFormed ∧ Text.IsBlanks behind
  | binary left before op behind right =>
    left.WellFormed ∧ Text.IsBlanks before ∧ op.IsAdditive ∧ Text.IsBlanks behind ∧
      right.WellFormed ∧ right.isOperand = true

instance decidableWellFormed : (e : Additive) → Decidable e.WellFormed
  | number _ => inferInstanceAs (Decidable (_ ∧ _))
  | group _ inner _ =>
    have := decidableWellFormed inner
    inferInstanceAs (Decidable (_ ∧ _ ∧ _))
  | binary left _ _ _ right =>
    have := decidableWellFormed left
    have := decidableWellFormed right
    inferInstanceAs (Decidable (_ ∧ _ ∧ _ ∧ _ ∧ _ ∧ _))

theorem isDigit_of_mem {digits : Text} (he : (number digits).WellFormed) {c : Char}
    (hc : c ∈ digits) : c.isDigit = true := List.all_eq_true.1 he.2 c hc

theorem natAbs_value_le (e : Additive) : e.value.natAbs ≤ e.total := by
  induction e with
  | number digits => exact Nat.le_refl _
  | group before inner behind ih => exact ih
  | binary left before op behind right ihl ihr =>
    have hop := op.natAbs_onWhole_le left.value right.value
    simp only [value, total]
    omega

/-! ## The text -/

theorem of_mem_text {e : Additive} (he : e.WellFormed) {c : Char} (hc : c ∈ e.text) :
    c.isDigit = true ∨ Text.isBlank c = true ∨ c ∈ ['+', '-', '(', ')'] := by
  induction e with
  | number digits => exact .inl (isDigit_of_mem he hc)
  | group before inner behind ih =>
    obtain ⟨hbefore, hinner, hbehind⟩ := he
    simp only [text, List.mem_cons, List.mem_append, List.not_mem_nil, or_false] at hc
    rcases hc with rfl | ((hc | hc) | hc) | rfl
    · simp
    · exact .inr (.inl (hbefore c hc))
    · exact ih hinner hc
    · exact .inr (.inl (hbehind c hc))
    · simp
  | binary left before op behind right ihl ihr =>
    obtain ⟨hleft, hbefore, hop, hbehind, hright, -⟩ := he
    simp only [text, List.mem_cons, List.mem_append] at hc
    rcases hc with (hc | hc) | rfl | hc | hc
    · exact ihl hleft hc
    · exact .inr (.inl (hbefore c hc))
    · rcases hop with rfl | rfl <;> simp [Operator.symbol]
    · exact .inr (.inl (hbehind c hc))
    · exact ihr hright hc

theorem text_ends {e : Additive} (he : e.WellFormed) :
    (∃ c, e.text.head? = some c ∧ Text.isBlank c = false) ∧
      ∃ c, e.text.getLast? = some c ∧ Text.isBlank c = false := by
  induction e with
  | number digits =>
    have hblank {c : Char} (hc : c ∈ digits) : Text.isBlank c = false :=
      Text.not_isBlank_of_isDigit (isDigit_of_mem he hc)
    constructor
    · exact ⟨_, List.head?_eq_some_head he.1, hblank (List.head_mem he.1)⟩
    · exact ⟨_, List.getLast?_eq_some_getLast he.1, hblank (List.getLast_mem he.1)⟩
  | group before inner behind =>
    refine ⟨⟨'(', rfl, by decide⟩, ')', ?_, by decide⟩
    rw [text, ← List.cons_append, List.getLast?_concat]
  | binary left before op behind right ihl ihr =>
    obtain ⟨hleft, -, -, -, hright, -⟩ := he
    obtain ⟨⟨c, hc, hcblank⟩, -⟩ := ihl hleft
    obtain ⟨-, d, hd, hdblank⟩ := ihr hright
    refine ⟨⟨c, ?_, hcblank⟩, d, ?_, hdblank⟩
    · rw [text, List.append_assoc, List.head?_append, hc]
      rfl
    · rw [text, List.getLast?_append, List.getLast?_cons, List.getLast?_append, hd]
      rfl

theorem text_ne_nil {e : Additive} (he : e.WellFormed) : e.text ≠ [] := by
  obtain ⟨⟨c, hc, -⟩, -⟩ := text_ends he
  intro h
  rw [h] at hc
  cases hc

theorem isTrimmed_text {e : Additive} (he : e.WellFormed) : Text.IsTrimmed e.text := by
  obtain ⟨⟨c, hc, hcblank⟩, d, hd, hdblank⟩ := text_ends he
  constructor
  · intro c' hc'
    rwa [Option.mem_unique hc' hc]
  · intro d' hd'
    rwa [Option.mem_unique hd' hd]

theorem neutral_text {e : Additive} (he : e.WellFormed) : Neutral e.text := by
  have hblanks {t : Text} (ht : Text.IsBlanks t) : Neutral t := neutral_of_not_mem
    (Text.not_mem_of_isBlanks ht (by decide)) (Text.not_mem_of_isBlanks ht (by decide))
  induction e with
  | number digits =>
    exact neutral_of_not_mem (fun h => absurd (isDigit_of_mem he h) (by decide))
      (fun h => absurd (isDigit_of_mem he h) (by decide))
  | group before inner behind ih =>
    obtain ⟨hbefore, hinner, hbehind⟩ := he
    exact (((hblanks hbefore).append (ih hinner)).append (hblanks hbehind)).group
  | binary left before op behind right ihl ihr =>
    obtain ⟨hleft, hbefore, -, hbehind, hright, -⟩ := he
    have hl := (ihl hleft).append (hblanks hbefore)
    have hr := (hblanks hbehind).append (ihr hright)
    exact hl.append ((neutral_symbol op).append hr)

theorem normalize_blanks_append {e : Additive} (he : e.WellFormed) {l r : Text}
    (hl : Text.IsBlanks l) (hr : Text.IsBlanks r) : normalize (l ++ e.text ++ r) = e.text := by
  have hnot (c : Char) (hdigit : c.isDigit = false) (hblank : Text.isBlank c = false)
      (hsign : c ∉ ['+', '-', '(', ')']) : c ∉ l ++ e.text ++ r := by
    simp only [List.mem_append, not_or]
    refine ⟨⟨Text.not_mem_of_isBlanks hl hblank, fun hc => ?_⟩, Text.not_mem_of_isBlanks hr hblank⟩
    rcases of_mem_text he hc with h | h | h
    · rw [h] at hdigit
      cases hdigit
    · rw [h] at hblank
      cases hblank
    · exact hsign h
  rw [normalize_of_not_mem (hnot '×' (by decide) (by decide) (by decide))
    (hnot '÷' (by decide) (by decide) (by decide)) (hnot '√' (by decide) (by decide) (by decide))]
  exact Text.trim_blanks_append hl (isTrimmed_text he) (text_ne_nil he) hr

theorem ofText?_text {e : Additive} (he : e.WellFormed) (hnumber : ∀ digits, e ≠ .number digits) :
    Literal.ofText? e.text = none := by
  cases e with
  | number digits => exact absurd rfl (hnumber digits)
  | group before inner behind =>
    have hopening : '(' ∈ (group before inner behind).text := by simp [text]
    exact Literal.ofText?_of_mem hopening (by decide) (by decide) (by decide)
  | binary left before op behind right =>
    have hne : left.text ++ before ≠ [] := by simp [text_ne_nil he.1]
    exact Literal.ofText?_append_cons hne (isMark_symbol op).1 _

/-! ## The tokens -/

/-- **The tokens of the text are those of an expression with its value**, which is an operand where
the additive expression is one. -/
theorem exists_tokenize {e : Additive} (he : e.WellFormed) (htotal : e.total < Nat.pow 2 53) :
    ∃ ts tree, tokenize e.text = .ok ts ∧ Derives .sum ts tree ∧
      (e.isOperand = true → Derives .primary ts tree) ∧
        ∃ x, tree.eval = .ok x ∧ x.Denotes e.value := by
  induction e with
  | number digits =>
    have hdigits : ∀ c ∈ digits, c.isDigit = true := fun c hc => isDigit_of_mem he hc
    obtain ⟨x, hread, hx⟩ := literal?_digits he.1 hdigits htotal
    have hnumber := Derives.number x
    have htokens := tokenize_of_isUnsigned (Literal.isUnsigned_of_digits he.1 hdigits) hread
    exact ⟨_, _, htokens, .ofProduct (.ofSigned hnumber.ofPrimary), fun _ => hnumber, x, rfl, hx⟩
  | group before inner behind ih =>
    obtain ⟨hbefore, hinner, hbehind⟩ := he
    obtain ⟨ts, tree, hts, hsum, -, hvalue⟩ := ih hinner htotal
    have hgroup := Derives.group hsum
    have hinside : tokenize (before ++ inner.text ++ behind ++ [')']) = .ok (ts ++ [.closing]) := by
      rw [tokenize_append_eq_ok_iff (apart_cons_of_isMark _ (by decide) []),
        tokenize_blanks_append hbefore hbehind, tokenize_closing_cons, tokenize_nil]
      exact ⟨ts, [.closing], hts, rfl, rfl⟩
    refine ⟨_, tree, (tokenize_opening_cons _).trans (by rw [hinside]; rfl),
      .ofProduct (.ofSigned hgroup.ofPrimary), fun _ => hgroup, hvalue⟩
  | binary left before op behind right ihl ihr =>
    obtain ⟨hleft, hbefore, hop, hbehind, hright, hoperand⟩ := he
    simp only [total] at htotal
    obtain ⟨ls, x, hls, hsum, -, a, ha, hleftValue⟩ := ihl hleft (by omega)
    obtain ⟨rs, y, hrs, -, hprimary, b, hb, hrightValue⟩ := ihr hright (by omega)
    have hleftTokens : tokenize (left.text ++ before) = .ok ls := by
      rw [← hls]
      exact tokenize_blanks_append Text.isBlanks_nil hbefore left.text
    have hrightTokens : tokenize (behind ++ right.text) = .ok rs := by
      have h := tokenize_blanks_append hbehind Text.isBlanks_nil right.text
      rwa [List.append_nil, hrs] at h
    have hbound := Nat.add_le_add left.natAbs_value_le right.natAbs_value_le
    obtain ⟨z, hz, hdenotes⟩ :=
      Operator.apply_of_denotes hop hleftValue hrightValue (Nat.lt_of_le_of_lt hbound htotal)
    refine ⟨ls ++ .operator op :: rs, .binary x op y, ?_,
      .sum hsum hop (.ofSigned (hprimary hoperand).ofPrimary), nofun, z, ?_, hdenotes⟩
    · rw [text, tokenize_append_eq_ok_iff (apart_cons_of_isMark _ (isMark_symbol op) _),
        tokenize_symbol_cons, hrightTokens]
      exact ⟨ls, _, hleftTokens, rfl, rfl⟩
    · rw [Expr.eval, ha, hb]
      exact hz

end Additive

end DeskCalculator
