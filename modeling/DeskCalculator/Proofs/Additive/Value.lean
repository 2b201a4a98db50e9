import DeskCalculator.Proofs.Additive.Basic
import DeskCalculator.Proofs.Additive.Chain
import DeskCalculator.Proofs.Reduction.Context
import DeskCalculator.Proofs.Reduction.Order
import Mathlib.Logic.Relation

/-!
# The value of an additive expression

Both modes evaluate the text of an additive expression to the whole number that it stands for, exactly,
as long as the sum of its numbers is below `2 ^ 53` (`evaluate_additive`).

The standard mode computes along the tree. The reduction turns the text into a chain for the same
number, group by group: wherever the text stands behind an opening parenthesis, choices of groups lead
from it to a chain (`Additive.Reduces`), and an operand behind an operator becomes one number, the
operator being turned if the number is below zero (`Additive.ReducesBehind`). The order of the choices
is that of the tree and not the one of the evaluation, which makes no difference
(`Reduction.Ends.eq_ok`).
-/

namespace DeskCalculator

open Relation (ReflTransGen)

/-! ## Sequences of steps -/

namespace Reduction

variable {t u : Text}

theorem Step.isReady (h : Step t u) (ht : IsReady t) : IsReady u := by
  obtain ⟨-, -, rfl, -, hresult⟩ := h
  obtain ⟨x, hvalue, rfl⟩ := Group.resolve_eq_ok_iff.1 hresult
  have hnext := ht.splice hvalue
  rwa [Text.trim_of_isTrimmed hnext.trimmed]

theorem IsReady.of_steps (h : ReflTransGen Step t u) (ht : IsReady t) : IsReady u := by
  induction h with
  | refl => exact ht
  | tail _ hstep ih => exact hstep.isReady ih

theorem Ends.of_steps (h : ReflTransGen Step t u) {o : Outcome Binary64} (hu : Ends u o) :
    Ends t o := by
  induction h using ReflTransGen.head_induction_on with
  | refl => exact hu
  | head hstep _ ih => exact .step hstep ih

theorem Ends.of_chain {z : Int} {n : Nat} (h : Chain t z n) (hn : n < Nat.pow 2 53) (ht : IsReady t) :
    ∃ x, Ends t (.ok x) ∧ x.Denotes z := by
  cases h.cut with
  | literal hread hx => exact ⟨_, .literal hread, hx⟩
  | operation hnone =>
    obtain ⟨x, hvalue, hx⟩ := Chain.eval (by rwa [Text.trim_of_isTrimmed h.isTrimmed]) hn
    obtain ⟨m, hm⟩ := Option.isSome_iff_exists.1 (Parens.isSome_scan?_iff.2 ht.balanced)
    refine ⟨x, ?_, hx⟩
    rw [← hvalue]
    refine .flat hnone hm fun p hp => ?_
    obtain ⟨g, rfl, -⟩ := (Parens.isInnermost_iff hm).1 hp
    have hopening : '(' ∉ g.text := h.not_mem (by decide) (by decide) (by decide) (by decide)
    exact hopening (by simp [Group.text])

end Reduction

/-! ## Around an operand, with blanks -/

/-- An operand may stand in front of the text. -/
def EndsOperand (after : Text) : Prop :=
  ∀ c ∈ (Text.trimStart after).head?, Group.startsOperand c = false

theorem endsOperand_nil : EndsOperand [] := nofun

theorem endsOperand_of_blanks {blanks : Text} (hblanks : Text.IsBlanks blanks) {c : Char}
    (hblank : Text.isBlank c = false) (hstarts : Group.startsOperand c = false) (after : Text) :
    EndsOperand (blanks ++ c :: after) := by
  intro d hd
  have htrim : Text.trimStart (c :: after) = c :: after := by
    refine Text.trimStart_of_head? fun e he => ?_
    rwa [← Option.some.inj he]
  rw [Text.trimStart_append_of_isBlanks hblanks, htrim] at hd
  rwa [← Option.some.inj hd]

theorem endsOperand_symbol {blanks : Text} (hblanks : Text.IsBlanks blanks) (op : Operator)
    (after : Text) : EndsOperand (blanks ++ op.symbol :: after) := by
  refine endsOperand_of_blanks hblanks ?_ ?_ after
  · cases op <;> decide
  · cases op <;> decide

theorem OpensOperand.trimEnd_append {front blanks : Text} (h : OpensOperand front)
    (hblanks : Text.IsBlanks blanks) : Text.trimEnd (front ++ blanks) = front := by
  rw [Text.trimEnd_append_of_isBlanks hblanks]
  refine Text.trimEnd_of_getLast? fun c hc => ?_
  rcases h c hc with rfl | ⟨op, rfl⟩
  · decide
  · cases op <;> decide

/-- A group with blanks in front of it loses them when its value is written. -/
theorem Group.value_and_splice_of_blanks {front blanks inside after : Text}
    (hopens : OpensOperand front) (hblanks : Text.IsBlanks blanks) (hafter : EndsOperand after)
    (hopening : '(' ∉ inside) (hclosing : ')' ∉ inside) :
    let g : Group := ⟨front ++ blanks, inside, after, hopening, hclosing⟩
    g.value = (Split.ofText inside).eval ∧ ∀ x, g.splice x = written front x after := by
  intro g
  have htrim : Text.trimEnd g.before = front := hopens.trimEnd_append hblanks
  have hfront : g.front = (g.before, false) := by
    rw [Group.front, htrim, hopens.dropEnding?_eq_none]
  have hroot : g.front.2 = false := by rw [hfront]
  have h := g.value_and_splice hopens hafter (by rw [hfront, htrim]) hroot
  refine ⟨h.1.trans ?_, h.2⟩
  show ((Split.ofText inside).eval >>= fun x => Except.ok x) = (Split.ofText inside).eval
  cases (Split.ofText inside).eval <;> rfl

/-! ## Written whole numbers -/

theorem Binary64.Denotes.unsignedZero {x : Binary64} {z : Int} (h : x.Denotes z) :
    x.unsignedZero.Denotes z := by
  rcases x.isZero_or_unsignedZero_eq with ⟨negative, rfl⟩ | hsame
  · obtain ⟨_, m, heq, hunits⟩ := h
    obtain ⟨rfl, rfl⟩ := Binary64.finite.inj heq
    rw [Binary64.signedUnits_zero] at hunits
    exact ⟨false, .zero, rfl, hunits⟩
  · rwa [hsame]

theorem isWholeLiteral_plain {x : Binary64} {z : Int} (hx : x.Denotes z)
    (h : x.isBelowZero = false) : IsWholeLiteral x.plain z :=
  ⟨isUnsigned_plain hx.isFinite h, _, literal?_plain hx.isFinite, hx.unsignedZero⟩

theorem Chain.of_plain {x : Binary64} {z : Int} (hx : x.Denotes z) : Chain x.plain z z.natAbs := by
  cases h : x.isBelowZero with
  | false => exact .number (isWholeLiteral_plain hx h)
  | true =>
    have hchain := Chain.negative (isWholeLiteral_plain hx.neg (Binary64.isBelowZero_neg h))
    rwa [← plain_of_isBelowZero hx.isFinite h, Int.neg_neg, Int.natAbs_neg] at hchain

theorem exists_absorbSign_additive (front : Text) {op : Operator} (hop : op.IsAdditive) {x : Binary64}
    {z : Int} (hx : x.Denotes z) :
    ∃ (op' : Operator) (y : Binary64) (w : Int),
      Group.absorbSign (front ++ [op.symbol]) x = (front ++ [op'.symbol], y) ∧ op'.IsAdditive ∧
        IsWholeLiteral y.plain w ∧ w.natAbs = z.natAbs ∧ ∀ a, op'.onWhole a w = op.onWhole a z := by
  have hlast : (front ++ [op.symbol]).getLast? = some op.symbol := List.getLast?_concat
  unfold Group.absorbSign
  rw [hlast, List.dropLast_concat]
  cases h : x.isBelowZero with
  | false => exact ⟨op, x, z, rfl, hop, isWholeLiteral_plain hx h, rfl, fun _ => rfl⟩
  | true =>
    have hneg := isWholeLiteral_plain hx.neg (Binary64.isBelowZero_neg h)
    rcases hop with rfl | rfl
    · refine ⟨.subtract, x.neg, -z, rfl, .inr rfl, hneg, Int.natAbs_neg z, fun a => ?_⟩
      simp [Operator.onWhole]
    · refine ⟨.add, x.neg, -z, rfl, .inl rfl, hneg, Int.natAbs_neg z, fun a => ?_⟩
      simp only [Operator.onWhole, reduceCtorEq, if_false, if_true]
      omega

namespace Additive

open Reduction (Step IsReady)

/-! ## From the text to a chain -/

/-- Behind an opening parenthesis, or with nothing in front, the text leads to a chain for the value of
the expression. -/
def Reduces (e : Additive) : Prop :=
  ∀ front blanks after, (∀ c ∈ front.getLast?, c = '(') → Text.IsBlanks blanks → EndsOperand after →
    IsReady (front ++ blanks ++ e.text ++ after) →
      ∃ blanks' t n, Text.IsBlanks blanks' ∧ Chain t e.value n ∧ n ≤ e.total ∧
        ReflTransGen Step (front ++ blanks ++ e.text ++ after) (front ++ blanks' ++ t ++ after)

/-- Behind an additive operator the text leads to one number, which does with the operator what the
value of the expression did. -/
def ReducesBehind (e : Additive) : Prop :=
  ∀ front (op : Operator) blanks after, op.IsAdditive → Text.IsBlanks blanks → EndsOperand after →
    IsReady (front ++ op.symbol :: (blanks ++ e.text ++ after)) →
      ∃ (op' : Operator) (blanks' d : Text) (y : Int), op'.IsAdditive ∧ Text.IsBlanks blanks' ∧
        IsWholeLiteral d y ∧ y.natAbs ≤ e.total ∧ (∀ a, op'.onWhole a y = op.onWhole a e.value) ∧
          ReflTransGen Step (front ++ op.symbol :: (blanks ++ e.text ++ after))
            (front ++ op'.symbol :: (blanks' ++ d ++ after))

theorem isWholeLiteral_digits {digits : Text} (he : (number digits).WellFormed)
    (htotal : (number digits).total < Nat.pow 2 53) : IsWholeLiteral digits (number digits).value := by
  have hdigits : ∀ c ∈ digits, c.isDigit = true := fun c hc => isDigit_of_mem he hc
  exact ⟨Literal.isUnsigned_of_digits he.1 hdigits, literal?_digits he.1 hdigits htotal⟩

theorem reduces_number {digits : Text} (he : (number digits).WellFormed)
    (htotal : (number digits).total < Nat.pow 2 53) :
    (number digits).Reduces ∧ (number digits).ReducesBehind := by
  have hnumber := isWholeLiteral_digits he htotal
  constructor
  · intro front blanks after _ hblanks _ _
    exact ⟨blanks, digits, _, hblanks, .number hnumber, natAbs_value_le _, .refl⟩
  · intro front op blanks after hop hblanks _ _
    exact ⟨op, blanks, digits, _, hop, hblanks, hnumber, natAbs_value_le _, fun _ => rfl, .refl⟩

theorem steps_group {inner : Additive} (hinner : inner.Reduces) (htotal : inner.total < Nat.pow 2 53)
    {front blanks before behind after : Text} (hopens : OpensOperand front)
    (hblanks : Text.IsBlanks blanks) (hbefore : Text.IsBlanks before) (hbehind : Text.IsBlanks behind)
    (hafter : EndsOperand after)
    (hready : IsReady (front ++ blanks ++ (group before inner behind).text ++ after)) :
    ∃ x, x.Denotes inner.value ∧
      ReflTransGen Step (front ++ blanks ++ (group before inner behind).text ++ after)
        (written front x after) := by
  have htext : front ++ blanks ++ (group before inner behind).text ++ after =
      front ++ blanks ++ ['('] ++ before ++ inner.text ++ (behind ++ ')' :: after) := by simp [text]
  have hlast : ∀ c ∈ (front ++ blanks ++ ['(']).getLast?, c = '(' := by
    intro c hc
    rw [List.getLast?_concat] at hc
    exact (Option.some.inj hc).symm
  rw [htext] at hready ⊢
  obtain ⟨before', t, n, hbefore', hchain, hn, hsteps⟩ := hinner _ before _ hlast hbefore
    (endsOperand_of_blanks hbehind (by decide) (by decide) after) hready
  have hnext := hready.of_steps hsteps
  have hnot {c : Char} (hnumeral : Literal.isNumeral c = false) (hblank : Text.isBlank c = false)
      (hplus : c ≠ '+') (hminus : c ≠ '-') : c ∉ before' ++ t ++ behind := by
    simp only [List.mem_append, not_or]
    exact ⟨⟨Text.not_mem_of_isBlanks hbefore' hblank, hchain.not_mem hnumeral hblank hplus hminus⟩,
      Text.not_mem_of_isBlanks hbehind hblank⟩
  have hopening := hnot (c := '(') (by decide) (by decide) (by decide) (by decide)
  have hclosing := hnot (c := ')') (by decide) (by decide) (by decide) (by decide)
  obtain ⟨hvalue, hsplice⟩ :=
    Group.value_and_splice_of_blanks hopens hblanks hafter hopening hclosing
  obtain ⟨x, hx, hdenotes⟩ := Chain.eval (t := before' ++ t ++ behind)
    (by rwa [Text.trim_blanks_append hbefore' hchain.isTrimmed hchain.ne_nil hbehind])
    (Nat.lt_of_le_of_lt hn htotal)
  let g : Group := ⟨front ++ blanks, before' ++ t ++ behind, after, hopening, hclosing⟩
  have hgroup : front ++ blanks ++ ['('] ++ before' ++ t ++ (behind ++ ')' :: after) = g.text := by
    simp [Group.text, g]
  rw [hgroup] at hsteps hnext
  refine ⟨x, hdenotes, hsteps.tail ?_⟩
  rw [← hsplice]
  exact hnext.step (hvalue.trans hx)

theorem reduces_group {before behind : Text} {inner : Additive} (hinner : inner.Reduces)
    (htotal : inner.total < Nat.pow 2 53) (hbefore : Text.IsBlanks before)
    (hbehind : Text.IsBlanks behind) : (group before inner behind).Reduces := by
  intro front blanks after hlast hblanks hafter hready
  have hopens : OpensOperand front := fun c hc => .inl (hlast c hc)
  obtain ⟨x, hx, hsteps⟩ := steps_group hinner htotal hopens hblanks hbefore hbehind hafter hready
  have hwritten : written front x after = front ++ [] ++ x.plain ++ after := by
    unfold written Group.absorbSign
    cases hcase : front.getLast? with
    | none => split <;> simp
    | some c =>
      obtain rfl := hlast c hcase
      split <;> simp
  rw [hwritten] at hsteps
  exact ⟨[], x.plain, _, Text.isBlanks_nil, .of_plain hx, natAbs_value_le inner, hsteps⟩

theorem reducesBehind_group {before behind : Text} {inner : Additive} (hinner : inner.Reduces)
    (htotal : inner.total < Nat.pow 2 53) (hbefore : Text.IsBlanks before)
    (hbehind : Text.IsBlanks behind) : (group before inner behind).ReducesBehind := by
  intro front op blanks after hop hblanks hafter hready
  have hopens : OpensOperand (front ++ [op.symbol]) := by
    intro c hc
    rw [List.getLast?_concat] at hc
    exact .inr ⟨op, (Option.some.inj hc).symm⟩
  have htext : front ++ op.symbol :: (blanks ++ (group before inner behind).text ++ after) =
      front ++ [op.symbol] ++ blanks ++ (group before inner behind).text ++ after := by simp
  rw [htext] at hready ⊢
  obtain ⟨x, hx, hsteps⟩ := steps_group hinner htotal hopens hblanks hbefore hbehind hafter hready
  obtain ⟨op', y, w, habsorb, hop', hliteral, habs, hsame⟩ := exists_absorbSign_additive front hop hx
  have hwritten : written (front ++ [op.symbol]) x after =
      front ++ op'.symbol :: ([] ++ y.plain ++ after) := by
    rw [written, habsorb]
    simp
  rw [hwritten] at hsteps
  refine ⟨op', [], y.plain, w, hop', Text.isBlanks_nil, hliteral, ?_, hsame, hsteps⟩
  rw [habs]
  exact natAbs_value_le inner

theorem reduces_binary {left right : Additive} {before behind : Text} {op : Operator}
    (hleft : left.Reduces) (hright : right.ReducesBehind) (hbefore : Text.IsBlanks before)
    (hop : op.IsAdditive) (hbehind : Text.IsBlanks behind) :
    (binary left before op behind right).Reduces := by
  intro front blanks after hlast hblanks hafter hready
  have htext : front ++ blanks ++ (binary left before op behind right).text ++ after =
      front ++ blanks ++ left.text ++ (before ++ op.symbol :: (behind ++ right.text ++ after)) := by
    simp [text]
  rw [htext] at hready ⊢
  obtain ⟨blanks', t, n, hblanks', hchain, hn, hsteps⟩ :=
    hleft front blanks _ hlast hblanks (endsOperand_symbol hbefore op _) hready
  have hmiddle : front ++ blanks' ++ t ++ (before ++ op.symbol :: (behind ++ right.text ++ after)) =
      (front ++ blanks' ++ t ++ before) ++ op.symbol :: (behind ++ right.text ++ after) := by simp
  have hnext := hready.of_steps hsteps
  rw [hmiddle] at hsteps hnext
  obtain ⟨op', behind', d, y, hop', hbehind', hd, hy, hsame, hsteps'⟩ :=
    hright _ op behind after hop hbehind hafter hnext
  have hend : (front ++ blanks' ++ t ++ before) ++ op'.symbol :: (behind' ++ d ++ after) =
      front ++ blanks' ++ (t ++ before ++ op'.symbol :: (behind' ++ d)) ++ after := by simp
  rw [hend] at hsteps'
  refine ⟨blanks', _, n + y.natAbs, hblanks', ?_, Nat.add_le_add hn hy, hsteps.trans hsteps'⟩
  rw [value, ← hsame]
  exact hchain.append hbefore hop' hbehind' hd

theorem reduces {e : Additive} (he : e.WellFormed) (htotal : e.total < Nat.pow 2 53) :
    e.Reduces ∧ (e.isOperand = true → e.ReducesBehind) := by
  induction e with
  | number digits =>
    obtain ⟨hreduces, hbehind⟩ := reduces_number he htotal
    exact ⟨hreduces, fun _ => hbehind⟩
  | group before inner behind ih =>
    obtain ⟨hbefore, hinner, hbehind⟩ := he
    obtain ⟨hreduces, -⟩ := ih hinner htotal
    exact ⟨reduces_group hreduces htotal hbefore hbehind,
      fun _ => reducesBehind_group hreduces htotal hbefore hbehind⟩
  | binary left before op behind right ihl ihr =>
    obtain ⟨hleft, hbefore, hop, hbehind, hright, hoperand⟩ := he
    simp only [total] at htotal
    obtain ⟨hreduces, -⟩ := ihl hleft (by omega)
    obtain ⟨-, hreducesBehind⟩ := ihr hright (by omega)
    refine ⟨reduces_binary hreduces (hreducesBehind hoperand) hbefore hop hbehind, fun h => ?_⟩
    cases h

/-! ## Both modes -/

/-- **A mode evaluates the text of an additive expression to its value.** -/
theorem evaluate_text {e : Additive} (he : e.WellFormed) (htotal : e.total < Nat.pow 2 53) (mode : Mode) :
    ∃ x, mode.evaluate e.text = .ok x ∧ x.Denotes e.value := by
  cases mode with
  | standard =>
    obtain ⟨ts, tree, hts, hsum, -, x, hx, hdenotes⟩ := exists_tokenize he htotal
    refine ⟨x, ?_, hdenotes⟩
    rw [Mode.evaluate, Expr.parse, hts]
    show (Expr.ofTokens ts >>= Expr.eval) = _
    rw [ofTokens_of_derives hsum]
    exact hx
  | legacy =>
    have hready : IsReady ([] ++ [] ++ e.text ++ []) := by
      rw [List.append_nil]
      exact ⟨(neutral_text he).balanced, isTrimmed_text he⟩
    obtain ⟨blanks, t, n, hblanks, hchain, hn, hsteps⟩ :=
      (reduces he htotal).1 [] [] [] (by simp) Text.isBlanks_nil endsOperand_nil hready
    have hend := hready.of_steps hsteps
    simp only [List.append_nil, List.nil_append] at hsteps hend
    -- the text of the chain is trimmed, so that no blank is left in front of it
    have hnil : blanks = [] := by
      cases blanks with
      | nil => rfl
      | cons c blanks =>
        have hhead := hend.trimmed.head c rfl
        rw [hblanks c (by simp)] at hhead
        cases hhead
    subst hnil
    obtain ⟨x, hends, hx⟩ := Reduction.Ends.of_chain hchain (Nat.lt_of_le_of_lt hn htotal) hend
    refine ⟨x, ?_, hx⟩
    rw [Mode.evaluate, Text.trim_of_isTrimmed (isTrimmed_text he)]
    exact (Reduction.Ends.ofText e.text).eq_ok (.of_steps hsteps hends) (isTrimmed_text he)

end Additive

/-- **Both modes compute additive expressions exactly.** Whatever blanks stand around and between the
tokens, a text within the limits whose numbers add up to less than `2 ^ 53` is evaluated to the whole
number that it stands for. -/
theorem evaluate_additive (e : Additive) (ev : Evaluator) (l r : Text) (he : e.WellFormed)
    (hl : Text.IsBlanks l) (hr : Text.IsBlanks r) (htotal : e.total < Nat.pow 2 53)
    (hlength : e.text.length ≤ ev.limits.maxLength) (hdepth : nesting e.text ≤ ev.limits.maxDepth) :
    ∃ x, ev.evaluate (l ++ e.text ++ r) = .ok x ∧ x.Denotes e.value := by
  have hnormal := Additive.normalize_blanks_append he hl hr
  have hne := Additive.text_ne_nil he
  by_cases hnumber : ∃ digits, e = .number digits
  · obtain ⟨digits, rfl⟩ := hnumber
    obtain ⟨x, hread, hx⟩ := (Additive.isWholeLiteral_digits he htotal).reads
    exact ⟨x, ev.evaluate_of_literal? hnormal hne hlength hread, hx⟩
  · have hliteral := Additive.ofText?_text he fun digits h => hnumber ⟨digits, h⟩
    rw [ev.evaluate_of_shallow hnormal hne hlength hliteral (Additive.neutral_text he).balanced hdepth]
    exact Additive.evaluate_text he htotal ev.mode

/-- A difference taken away, with blanks, in ` 1 - ( 2 -5)`. -/
theorem evaluate_additive_turned_sign :
    let e : Additive := .binary (.number ['1']) [' '] .subtract [' ']
      (.group [' '] (.binary (.number ['2']) [' '] .subtract [] (.number ['5'])) [])
    e.WellFormed ∧ e.text = "1 - ( 2 -5)".toList ∧ e.value = 4 ∧
      ∃ x, (Evaluator.mk .legacy .standard).evaluate ([' '] ++ e.text ++ []) = .ok x ∧
        x.Denotes e.value := by
  intro e
  have he : e.WellFormed := by decide
  exact ⟨he, by decide, by decide, evaluate_additive e _ _ _ he (by decide) (by decide) (by decide)
    (by decide) (by decide)⟩

end DeskCalculator
