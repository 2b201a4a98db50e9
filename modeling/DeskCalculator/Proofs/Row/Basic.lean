import DeskCalculator.Proofs.Reduction.Flat
import Mathlib.Data.List.Basic

/-!
# Rows of operands

A flat text that has a value is a row: literals with operators between them, and blanks around the
operators. A sign stands directly before the digits of its literal. Signs are written like two of the
operators, and still a text is a row in one way (`Row.text_injective`).

Where a sign may stand depends on the operator in front (`Row.Joint.Admits`), and a row whose signs
all stand in such places is well-signed (`Row.WellSigned`).
-/

namespace DeskCalculator

open Literal (isNumeral)

/-- A sign in front of a literal. -/
inductive Sign where
  | plus
  | minus
  deriving DecidableEq

namespace Sign

/-- The operator that is written like the sign. -/
def operator : Sign → Operator
  | plus => .add
  | minus => .subtract

def symbol (s : Sign) : Char := s.operator.symbol

/-- A character that is written for a sign. -/
def isSymbol (c : Char) : Bool := c == '+' || c == '-'

theorem isSymbol_symbol (s : Sign) : isSymbol s.symbol = true := by cases s <;> decide

theorem not_isSymbol_of_isNumeral {c : Char} (h : isNumeral c = true) : isSymbol c = false := by
  rw [Bool.eq_false_iff]
  intro hc
  simp only [isSymbol, Bool.or_eq_true, beq_iff_eq] at hc
  rcases hc with rfl | rfl <;> exact absurd h (by decide)

theorem isGraphic_map_symbol (signs : List Sign) : Text.IsGraphic (signs.map symbol) := by
  intro c hc
  obtain ⟨s, -, rfl⟩ := List.mem_map.1 hc
  exact isGraphic_symbol s.operator

theorem map_symbol_injective {signs signs' : List Sign}
    (h : signs.map symbol = signs'.map symbol) : signs = signs' := by
  refine (List.map_inj_right fun s s' hs => ?_).1 h
  cases s <;> cases s' <;> first | rfl | exact absurd hs (by decide)

theorem eq_nil_or_singleton {signs : List Sign} (h : signs.length ≤ 1) :
    signs = [] ∨ ∃ s, signs = [s] := by
  cases signs with
  | nil => exact .inl rfl
  | cons s signs =>
    have hnil : signs = [] := List.length_eq_zero_iff.1 (by simpa using h)
    exact .inr ⟨s, by rw [hnil]⟩

end Sign

namespace Row

/-- An unsigned literal with the signs directly in front of it. -/
@[ext]
structure Operand where
  signs : List Sign
  body : Text
  isUnsigned : Literal.isUnsigned body = true

/-- An operator with the blanks around it. -/
@[ext]
structure Joint where
  before : Text
  op : Operator
  behind : Text
  isBlanks_before : Text.IsBlanks before
  isBlanks_behind : Text.IsBlanks behind

/-- The literal that an operand is if it has one sign at most. -/
def Operand.literal (x : Operand) : Literal := ⟨x.signs.contains .minus, Literal.unsignedValue x.body⟩

def Operand.text (x : Operand) : Text := x.signs.map Sign.symbol ++ x.body

def Joint.text (j : Joint) : Text := j.before ++ j.op.symbol :: j.behind

/-- Where signs may stand: one of either kind behind an operator that multiplies or divides, a minus
behind one that adds, and none behind one that subtracts. -/
def Joint.Admits (j : Joint) (x : Operand) : Prop :=
  match j.op with
  | .multiply | .divide => x.signs.length ≤ 1
  | .add => x.signs = [] ∨ x.signs = [.minus]
  | .subtract => x.signs = []

instance (j : Joint) (x : Operand) : Decidable (j.Admits x) := by
  unfold Joint.Admits
  split <;> infer_instance

/-- The text of operands behind their operators. -/
def linksText (links : List (Joint × Operand)) : Text := links.flatMap fun k => k.1.text ++ k.2.text

end Row

/-- An operand, and further ones behind operators. -/
@[ext]
structure Row where
  first : Row.Operand
  links : List (Row.Joint × Row.Operand)

namespace Row

def text (c : Row) : Text := c.first.text ++ linksText c.links

/-- The operators, from the left. -/
def ops (c : Row) : List Operator := c.links.map (·.1.op)

/-- Two rows with an operator between them. -/
def join (c : Row) (j : Joint) (d : Row) : Row := ⟨c.first, c.links ++ (j, d.first) :: d.links⟩

/-- No sign stands where it may not. -/
def WellSigned (c : Row) : Prop :=
  c.first.signs.length ≤ 1 ∧ ∀ k ∈ c.links, k.1.Admits k.2

instance (c : Row) : Decidable c.WellSigned := inferInstanceAs (Decidable (_ ∧ _))

@[simp] theorem text_join (c : Row) (j : Joint) (d : Row) :
    (c.join j d).text = c.text ++ j.text ++ d.text := by
  simp [text, join, linksText, List.append_assoc]

@[simp] theorem ops_join (c : Row) (j : Joint) (d : Row) :
    (c.join j d).ops = c.ops ++ j.op :: d.ops := by
  simp [ops, join]

theorem length_links_join (c : Row) (j : Joint) (d : Row) :
    (c.join j d).links.length = c.links.length + d.links.length + 1 := by
  simp [join, Nat.add_assoc]

@[simp] theorem linksText_nil : linksText [] = [] := rfl

theorem linksText_cons (j : Joint) (x : Operand) (links : List (Joint × Operand)) :
    linksText ((j, x) :: links) = j.text ++ (⟨x, links⟩ : Row).text := by
  simp [linksText, text, List.append_assoc]

/-! ## Characters -/

namespace Operand

variable (x : Operand)

theorem isGraphic_text : Text.IsGraphic x.text :=
  (Sign.isGraphic_map_symbol _).append (isGraphic_of_isUnsigned x.isUnsigned)

theorem text_ne_nil : x.text ≠ [] := by
  simp [text, Literal.ne_nil_of_isUnsigned x.isUnsigned]

theorem symbol_not_mem_body (op : Operator) : op.symbol ∉ x.body :=
  Literal.not_mem_of_isUnsigned x.isUnsigned (isMark_symbol op).1

theorem exists_sign_of_symbol_mem {x : Operand} {op : Operator} (h : op.symbol ∈ x.text) :
    ∃ s ∈ x.signs, s.operator = op := by
  rcases List.mem_append.1 h with h | h
  · obtain ⟨s, hs, hsymbol⟩ := List.mem_map.1 h
    exact ⟨s, hs, symbol_injective hsymbol⟩
  · exact absurd h (x.symbol_not_mem_body op)

end Operand

namespace Joint

variable (j : Joint)

theorem text_ne_nil : j.text ≠ [] := by simp [text]

theorem eq_of_symbol_mem {op : Operator} (h : op.symbol ∈ j.text) : j.op = op := by
  simp only [text, List.mem_append, List.mem_cons] at h
  rcases h with h | h | h
  · exact absurd h (Text.not_mem_of_isBlanks j.isBlanks_before (not_isBlank_symbol op))
  · exact (symbol_injective h).symm
  · exact absurd h (Text.not_mem_of_isBlanks j.isBlanks_behind (not_isBlank_symbol op))

theorem not_isNumeral_of_mem {j : Joint} {c : Char} (hc : c ∈ j.text) : isNumeral c = false := by
  simp only [text, List.mem_append, List.mem_cons] at hc
  rcases hc with hc | rfl | hc
  · exact (isMark_of_isBlank (j.isBlanks_before c hc)).1
  · exact (isMark_symbol j.op).1
  · exact (isMark_of_isBlank (j.isBlanks_behind c hc)).1

end Joint

theorem text_ne_nil (c : Row) : c.text ≠ [] := by simp [text, c.first.text_ne_nil]

theorem isTrimmed_text (c : Row) : Text.IsTrimmed c.text := by
  obtain ⟨first, links⟩ := c
  induction links generalizing first with
  | nil => simpa [text, linksText] using Text.isTrimmed_of_isGraphic first.isGraphic_text
  | cons k links ih =>
    obtain ⟨j, x⟩ := k
    have hlast := List.getLast?_append_of_ne_nil j.text (text_ne_nil ⟨x, links⟩)
    have h := Text.isTrimmed_append (l := []) (r := j.text ++ (⟨x, links⟩ : Row).text) nofun
      (Text.isTrimmed_of_isGraphic first.isGraphic_text) first.text_ne_nil
      (by rw [hlast]; exact (ih x).last)
    rwa [text, linksText_cons]

/-! ## One reading -/

theorem append_inj_of_run {p : Char → Bool} {l l' r r' : Text} (hl : ∀ c ∈ l, p c = true)
    (hl' : ∀ c ∈ l', p c = true) (hr : ∀ c ∈ r.head?, p c = false)
    (hr' : ∀ c ∈ r'.head?, p c = false) (h : l ++ r = l' ++ r') : l = l' ∧ r = r' := by
  have hrun {r : Text} (hr : ∀ c ∈ r.head?, p c = false) : r.takeWhile p = [] := by
    cases r with
    | nil => rfl
    | cons c r => simp [hr c rfl]
  have heq := congrArg (List.takeWhile p) h
  rw [List.takeWhile_append_of_pos hl, List.takeWhile_append_of_pos hl', hrun hr, hrun hr',
    List.append_nil, List.append_nil] at heq
  subst heq
  exact ⟨rfl, List.append_cancel_left h⟩

theorem not_isNumeral_of_head?_linksText {links : List (Joint × Operand)} {c : Char}
    (hc : c ∈ (linksText links).head?) : isNumeral c = false := by
  cases links with
  | nil => cases hc
  | cons k links =>
    rw [linksText_cons, List.head?_append_of_ne_nil _ k.1.text_ne_nil] at hc
    exact Joint.not_isNumeral_of_mem (List.mem_of_head? hc)

theorem Operand.append_linksText_inj {x x' : Operand} {links links' : List (Joint × Operand)}
    (h : x.text ++ linksText links = x'.text ++ linksText links') :
    x = x' ∧ linksText links = linksText links' := by
  have hnumeral (x : Operand) (r : Text) : ∀ c ∈ (x.body ++ r).head?, Sign.isSymbol c = false := by
    intro c hc
    rw [List.head?_append_of_ne_nil _ (Literal.ne_nil_of_isUnsigned x.isUnsigned)] at hc
    exact Sign.not_isSymbol_of_isNumeral (Literal.isNumeral_of_head? x.isUnsigned hc)
  have hsigns (x : Operand) : ∀ c ∈ x.signs.map Sign.symbol, Sign.isSymbol c = true := by
    intro c hc
    obtain ⟨s, -, rfl⟩ := List.mem_map.1 hc
    exact s.isSymbol_symbol
  rw [text, text, List.append_assoc, List.append_assoc] at h
  obtain ⟨hsign, h⟩ := append_inj_of_run (hsigns x) (hsigns x') (hnumeral x _) (hnumeral x' _) h
  obtain ⟨hbody, h⟩ := append_inj_of_run
    (fun _ => Literal.isNumeral_of_isUnsigned x.isUnsigned)
    (fun _ => Literal.isNumeral_of_isUnsigned x'.isUnsigned)
    (fun _ => not_isNumeral_of_head?_linksText) (fun _ => not_isNumeral_of_head?_linksText) h
  exact ⟨Operand.ext (Sign.map_symbol_injective hsign) hbody, h⟩

theorem Joint.text_append_inj {j j' : Joint} {c c' : Row}
    (h : j.text ++ c.text = j'.text ++ c'.text) : j = j' ∧ c.text = c'.text := by
  have hhead (op : Operator) (r : Text) :
      ∀ d ∈ (op.symbol :: r).head?, Text.isBlank d = false := by
    intro d hd
    rw [← Option.some.inj hd]
    exact not_isBlank_symbol op
  simp only [Joint.text, List.append_assoc, List.cons_append] at h
  obtain ⟨hbefore, h⟩ := append_inj_of_run j.isBlanks_before j'.isBlanks_before (hhead _ _)
    (hhead _ _) h
  obtain ⟨hop, h⟩ := List.cons.inj h
  obtain ⟨hbehind, h⟩ := append_inj_of_run j.isBlanks_behind j'.isBlanks_behind
    c.isTrimmed_text.head c'.isTrimmed_text.head h
  exact ⟨Joint.ext hbefore (symbol_injective hop) hbehind, h⟩

/-- **A text is a row in one way at most.** -/
theorem text_injective {c c' : Row} (h : c.text = c'.text) : c = c' := by
  obtain ⟨first, links⟩ := c
  obtain ⟨first', links'⟩ := c'
  induction links generalizing first first' links' with
  | nil =>
    obtain ⟨rfl, htail⟩ := Operand.append_linksText_inj h
    cases links' with
    | nil => rfl
    | cons k links' =>
      rw [linksText_cons, linksText_nil] at htail
      exact absurd htail.symm (by simp [k.1.text_ne_nil])
  | cons k links ih =>
    obtain ⟨rfl, htail⟩ := Operand.append_linksText_inj h
    cases links' with
    | nil =>
      rw [linksText_cons, linksText_nil] at htail
      exact absurd htail (by simp [k.1.text_ne_nil])
    | cons k' links' =>
      rw [linksText_cons, linksText_cons] at htail
      obtain ⟨hjoint, hrest⟩ := Joint.text_append_inj htail
      obtain ⟨hoperand, hlinks⟩ := Row.mk.inj (ih _ _ _ hrest)
      rw [Prod.ext hjoint hoperand, hlinks]

end Row

end DeskCalculator
