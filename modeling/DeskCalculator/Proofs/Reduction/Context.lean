import DeskCalculator.Proofs.Reduction.Flat
import DeskCalculator.Proofs.Reduction.Parens

/-!
# Reducing an expression inside a text

A text that holds an expression in full parentheses reduces to the text that holds the value instead,
or ends with the error of the expression (`Reduction.eval_render`). The induction is on the
expression, for all texts around it: in front stands no closing parenthesis, so that the first group
of the whole text is one of the expression (`IsFront`), and behind it comes an operator or a closing
parenthesis (`IsBehind`). A value below zero may turn the sign in front of it (`written`); the
operation of which that sign is the operator gives the same then (`exists_absorbSign_symbol`).
-/

namespace DeskCalculator

open Binary64 (unsignedZero)

/-! ## One step -/

namespace Reduction

theorem eval_of_literal? {t : Text} {x : Binary64} (h : literal? t = .ok (some x)) :
    (ofText t).eval = .ok x := by
  rw [ofText, h]
  rfl

theorem eval_text (g : Group) (hfirst : ')' ∉ g.before) (hbalanced : Balanced g.text) :
    (ofText g.text).eval = g.value >>= fun x => (ofText (Text.trim (g.splice x))).eval := by
  have hmem : '(' ∈ g.text := by simp [Group.text]
  have hliteral : literal? g.text = .ok none :=
    literal?_eq_ok_none_iff.2 (Literal.ofText?_of_mem hmem (by decide) (by decide) (by decide))
  have hscan : (Parens.scan? g.text).isNone = false := by
    rw [Option.isNone_eq_false_iff]
    exact Parens.isSome_scan?_iff.2 hbalanced
  rw [ofText, hliteral]
  simp only [hscan, Bool.false_eq_true, if_false]
  split
  next hnone =>
    rw [g.first?_text hfirst] at hnone
    cases hnone
  next g' hsome =>
    rw [g.first?_text hfirst] at hsome
    obtain rfl := Option.some.inj hsome
    split
    next e hresolve =>
      rw [Group.resolve_eq_error_iff.1 hresolve]
      rfl
    next result hresolve =>
      obtain ⟨x, hvalue, rfl⟩ := Group.resolve_eq_ok_iff.1 hresolve
      rw [hvalue]
      rfl

end Reduction

/-! ## Around an operand -/

/-- A text that an operand may stand behind, with all groups still open. -/
structure IsFront (front : Text) : Prop where
  graphic : Text.IsGraphic front
  closing_not_mem : ')' ∉ front
  last : ∀ c ∈ front.getLast?, c = '(' ∨ ∃ op : Operator, c = op.symbol

/-- A text that may stand behind an operand. -/
structure IsBehind (after : Text) : Prop where
  graphic : Text.IsGraphic after
  head : ∀ c ∈ after.head?, c = ')' ∨ ∃ op : Operator, c = op.symbol

theorem isFront_nil : IsFront [] := ⟨Text.isGraphic_nil, by simp, nofun⟩

theorem isBehind_nil : IsBehind [] := ⟨Text.isGraphic_nil, nofun⟩

theorem isFront_opening {front : Text} (hgraphic : Text.IsGraphic front) (hclosing : ')' ∉ front) :
    IsFront (front ++ ['(']) where
  graphic := hgraphic.append (by decide)
  closing_not_mem := by simpa using hclosing
  last := by
    intro c hc
    rw [List.getLast?_concat] at hc
    exact .inl (Option.some.inj hc).symm

theorem isFront_symbol {front : Text} (hgraphic : Text.IsGraphic front) (hclosing : ')' ∉ front)
    (op : Operator) : IsFront (front ++ [op.symbol]) where
  graphic := hgraphic.append (Text.isGraphic_nil.cons (isGraphic_symbol op))
  closing_not_mem := by
    have hop : ')' ≠ op.symbol := by cases op <;> decide
    simp [hclosing, hop]
  last := by
    intro c hc
    rw [List.getLast?_concat] at hc
    exact .inr ⟨op, (Option.some.inj hc).symm⟩

theorem isBehind_closing {after : Text} (h : Text.IsGraphic after) : IsBehind (')' :: after) :=
  ⟨h.cons (by decide), fun _ hc => .inl (Option.some.inj hc).symm⟩

theorem isBehind_symbol {after : Text} (op : Operator) (h : Text.IsGraphic after) :
    IsBehind (op.symbol :: after) :=
  ⟨h.cons (isGraphic_symbol op), fun _ hc => .inr ⟨op, (Option.some.inj hc).symm⟩⟩

/-- The text with a value in place of an operand. -/
def written (front : Text) (x : Binary64) (after : Text) : Text :=
  (Group.absorbSign front x).1 ++ ((Group.absorbSign front x).2.plain ++ after)

theorem written_nil (x : Binary64) : written [] x [] = x.plain := by
  unfold written Group.absorbSign
  split <;> simp

theorem plain_unsignedZero (x : Binary64) : x.unsignedZero.plain = x.plain := by
  rcases x.isZero_or_unsignedZero_eq with ⟨negative, rfl⟩ | h
  · rfl
  · rw [h]

theorem written_unsignedZero (front : Text) (x : Binary64) (after : Text) :
    written front x.unsignedZero after = written front x after := by
  cases h : x.isBelowZero with
  | true => rw [Binary64.unsignedZero_of_not_isZero (Binary64.isZero_of_isBelowZero h)]
  | false =>
    have h' : x.unsignedZero.isBelowZero = false := by rw [Binary64.isBelowZero_unsignedZero, h]
    simp only [written, Group.absorbSign, h, h', Bool.false_eq_true, if_false, plain_unsignedZero]

theorem isGraphic_written {front after : Text} {x : Binary64} (hfront : Text.IsGraphic front)
    (hafter : Text.IsGraphic after) (hx : x.isFinite = true) :
    Text.IsGraphic (written front x after) := by
  have hneg : Text.IsGraphic x.neg.plain := isGraphic_plain (by rwa [Binary64.isFinite_neg])
  unfold written
  rcases Group.absorbSign_cases front x with h | ⟨-, f, ⟨rfl, h⟩ | ⟨rfl, h⟩⟩
  · rw [h]
    exact hfront.append ((isGraphic_plain hx).append hafter)
  · rw [h]
    have hf : Text.IsGraphic f := fun c hc => hfront c (by simp [hc])
    exact (hf.append (by decide)).append (hneg.append hafter)
  · rw [h]
    have hf : Text.IsGraphic f := fun c hc => hfront c (by simp [hc])
    exact (hf.append (by decide)).append (hneg.append hafter)

theorem written_opening (front : Text) (x : Binary64) (after : Text) :
    written (front ++ ['(']) x after = front ++ ['('] ++ (x.plain ++ after) := by
  have hlast : (front ++ ['(']).getLast? = some '(' := List.getLast?_concat
  unfold written Group.absorbSign
  rw [hlast]
  split <;> rfl

/-- **A turned operator gives the same with the turned operand**, and no minus stands in front of a
number below zero. -/
theorem exists_absorbSign_symbol (front : Text) (op : Operator) (y : Binary64) :
    ∃ (op' : Operator) (y' : Binary64),
      Group.absorbSign (front ++ [op.symbol]) y = (front ++ [op'.symbol], y') ∧
        (∀ x, op'.apply x y' = op.apply x y) ∧ (op' = .subtract → y'.isBelowZero = false) ∧
          y'.isFinite = y.isFinite := by
  have hlast : (front ++ [op.symbol]).getLast? = some op.symbol := List.getLast?_concat
  unfold Group.absorbSign
  rw [hlast, List.dropLast_concat]
  cases h : y.isBelowZero with
  | false => exact ⟨op, y, rfl, fun _ => rfl, fun _ => h, rfl⟩
  | true =>
    cases op with
    | add =>
      refine ⟨.subtract, y.neg, rfl, fun x => ?_, fun _ => Binary64.isBelowZero_neg h, y.isFinite_neg⟩
      simp only [Operator.apply, Binary64.sub, Binary64.neg_neg]
    | subtract =>
      exact ⟨.add, y.neg, rfl, fun x => rfl, fun hop => absurd hop (by decide), y.isFinite_neg⟩
    | multiply => exact ⟨.multiply, y, rfl, fun _ => rfl, fun hop => absurd hop (by decide), rfl⟩
    | divide => exact ⟨.divide, y, rfl, fun _ => rfl, fun hop => absurd hop (by decide), rfl⟩

/-! ## One group -/

/-- An operand may stand behind the text. -/
def OpensOperand (front : Text) : Prop :=
  ∀ c ∈ front.getLast?, c = '(' ∨ ∃ op : Operator, c = op.symbol

theorem IsFront.opensOperand {front : Text} (h : IsFront front) : OpensOperand front := h.last

namespace OpensOperand

variable {front : Text}

theorem not_endsOperand (h : OpensOperand front) :
    ∀ c ∈ front.getLast?, Group.endsOperand c = false := by
  intro c hc
  rcases h c hc with rfl | ⟨op, rfl⟩
  · decide
  · cases op <;> decide

theorem dropEnding?_eq_none (h : OpensOperand front) :
    Text.dropEnding? Token.rootWord front = none := by
  cases hcase : Text.dropEnding? Token.rootWord front with
  | none => rfl
  | some f =>
    have hword := h 't' (by rw [Text.eq_append_of_dropEnding? hcase]; simp [Token.rootWord])
    rcases hword with hword | ⟨op, hword⟩
    · cases hword
    · cases op <;> cases hword

end OpensOperand

theorem IsBehind.not_startsOperand {after : Text} (h : IsBehind after) :
    ∀ c ∈ (Text.trimStart after).head?, Group.startsOperand c = false := by
  rw [Text.trimStart_of_isGraphic h.graphic]
  intro c hc
  rcases h.head c hc with rfl | ⟨op, rfl⟩
  · decide
  · cases op <;> decide

theorem Group.value_and_splice {g : Group} {front : Text} (hopens : OpensOperand front)
    (hafter : ∀ c ∈ (Text.trimStart g.after).head?, startsOperand c = false)
    (hfront : Text.trimEnd g.front.1 = front) {root : Bool} (hroot : g.front.2 = root) :
    g.value = (Split.ofText g.inside).eval >>= (fun x => if root then squareRoot x else .ok x) ∧
      ∀ x, g.splice x = written front x g.after := by
  have hcheck : g.checkNeighbours = .ok () := by
    rw [checkNeighbours_eq_ok_iff, hfront]
    exact ⟨hopens.not_endsOperand, hafter⟩
  constructor
  · rw [value, hcheck, hroot]
    rfl
  · intro x
    rw [splice, hfront, List.append_assoc]
    rfl

namespace Reduction

theorem eval_resolved {g : Group} {front : Text} (hfront : IsFront front)
    (hbehind : IsBehind g.after) {root : Bool} (h : g.front = (front, root))
    (hfirst : ')' ∉ g.before) (hbalanced : Balanced g.text) :
    (ofText g.text).eval = (Split.ofText g.inside).eval >>=
      (fun x => if root then squareRoot x else .ok x) >>=
        fun x => (ofText (written front x g.after)).eval := by
  have htrim : Text.trimEnd g.front.1 = front := by
    rw [h]
    exact Text.trimEnd_of_isGraphic hfront.graphic
  obtain ⟨hvalue, hsplice⟩ := Group.value_and_splice hfront.opensOperand hbehind.not_startsOperand
    htrim (congrArg Prod.snd h)
  rw [eval_text g hfirst hbalanced, ← hvalue]
  cases hcase : g.value with
  | error e => rfl
  | ok x =>
    have hgraphic := isGraphic_written hfront.graphic hbehind.graphic (Group.isFinite_of_value hcase)
    show (ofText (Text.trim (g.splice x))).eval = _
    rw [hsplice, Text.trim_of_isGraphic hgraphic]
    rfl

section

variable {front inside after : Text}

theorem balanced_group (hinside : Neutral inside) (hbalanced : Balanced (front ++ after)) :
    Balanced (front ++ '(' :: (inside ++ ')' :: after)) := by
  have h := (hinside.group.closes_append_iff front after).2 hbalanced
  simpa [Balanced] using h

theorem balanced_rootWord (hbalanced : Balanced (front ++ after)) :
    Balanced (front ++ Token.rootWord ++ after) := by
  have hneutral : Neutral Token.rootWord := neutral_of_not_mem (by decide) (by decide)
  rw [List.append_assoc]
  exact (hneutral.closes_append_iff front after).2 hbalanced

theorem eval_group (hfront : IsFront front) (hbehind : IsBehind after) (hopening : '(' ∉ inside)
    (hclosing : ')' ∉ inside) (hbalanced : Balanced (front ++ after)) :
    (ofText (front ++ '(' :: (inside ++ ')' :: after))).eval =
      (Split.ofText inside).eval >>= fun x => (ofText (written front x after)).eval := by
  let g : Group := ⟨front, inside, after, hopening, hclosing⟩
  have hword : g.front = (front, false) := by
    rw [Group.front, Text.trimEnd_of_isGraphic hfront.graphic, hfront.opensOperand.dropEnding?_eq_none]
  have h := eval_resolved (g := g) hfront hbehind hword hfront.closing_not_mem
    (balanced_group (neutral_of_not_mem hopening hclosing) hbalanced)
  refine h.trans ?_
  cases (Split.ofText inside).eval <;> rfl

theorem eval_root (hfront : IsFront front) (hbehind : IsBehind after) (hopening : '(' ∉ inside)
    (hclosing : ')' ∉ inside) (hbalanced : Balanced (front ++ after)) :
    (ofText (front ++ Token.rootWord ++ '(' :: (inside ++ ')' :: after))).eval =
      (Split.ofText inside).eval >>= squareRoot >>=
        fun x => (ofText (written front x after)).eval := by
  let g : Group := ⟨front ++ Token.rootWord, inside, after, hopening, hclosing⟩
  have hgraphic : Text.IsGraphic (front ++ Token.rootWord) := hfront.graphic.append (by decide)
  have hword : g.front = (front, true) := by
    rw [Group.front, Text.trimEnd_of_isGraphic hgraphic, Text.dropEnding?_append]
  have hnot : ')' ∉ front ++ Token.rootWord := by
    rw [List.mem_append, not_or]
    exact ⟨hfront.closing_not_mem, by decide⟩
  exact eval_resolved (g := g) hfront hbehind hword hnot
    (balanced_group (neutral_of_not_mem hopening hclosing) (balanced_rootWord hbalanced))

end

/-! ## A whole expression -/

/-- What follows an evaluation does not see the sign of a zero. -/
theorem bind_eq_of_map_eq {o o' : Outcome Binary64} {α : Type} {f : Binary64 → Outcome α}
    (hf : ∀ x, f x.unsignedZero = f x) (h : o.map unsignedZero = o'.map unsignedZero) :
    o >>= f = o' >>= f := by
  have hmap (o : Outcome Binary64) : o >>= f = o.map unsignedZero >>= f := by
    cases o with
    | error e => rfl
    | ok x => exact (hf x).symm
  rw [hmap o, hmap o', h]

theorem exists_absorbSign_minus (front : Text) {x : Binary64} (hx : x.isFinite = true) :
    ∃ (sign : Char) (y : Binary64),
      Group.absorbSign (front ++ ['-']) x = (front ++ [sign], y) ∧ '(' ∉ sign :: y.plain ∧
        ')' ∉ sign :: y.plain ∧
          (Split.ofText (sign :: y.plain)).eval.map unsignedZero = .ok x.neg.unsignedZero := by
  have hlast : (front ++ ['-']).getLast? = some '-' := List.getLast?_concat
  have hparens (c : Char) (y : Binary64) (hopening : '(' ≠ c) (hclosing : ')' ≠ c) :
      '(' ∉ c :: y.plain ∧ ')' ∉ c :: y.plain := by
    simp [hopening, hclosing, opening_not_mem_plain, closing_not_mem_plain]
  unfold Group.absorbSign
  rw [hlast, List.dropLast_concat]
  cases h : x.isBelowZero with
  | false =>
    obtain ⟨hopening, hclosing⟩ := hparens '-' x (by decide) (by decide)
    refine ⟨'-', x, rfl, hopening, hclosing, ?_⟩
    rw [Split.eval_minus hx h, ← Binary64.unsignedZero_neg_unsignedZero]
    rfl
  | true =>
    obtain ⟨hopening, hclosing⟩ := hparens '+' x.neg (by decide) (by decide)
    refine ⟨'+', x.neg, rfl, hopening, hclosing, ?_⟩
    rw [Split.eval_plus (by rwa [Binary64.isFinite_neg]) (Binary64.isBelowZero_neg h)]
    exact congrArg Except.ok (Binary64.unsignedZero_unsignedZero _)

/-- Wherever the text of the expression stands, it reduces to the value or ends with the error. -/
def ReducesInContext (e : Expr) : Prop :=
  ∀ front after, IsFront front → IsBehind after → Balanced (front ++ after) →
    (ofText (front ++ (e.render ++ after))).eval =
      e.eval >>= fun x => (ofText (written front x after)).eval

theorem reducesInContext_negate {e : Expr} (he : e.HasClearSigns) (h : ReducesInContext e) :
    ReducesInContext (.negate e) := by
  intro front after hfront hbehind hbalanced
  have htext : front ++ ((Expr.negate e).render ++ after) =
      front ++ ['('] ++ ['-'] ++ (e.render ++ ')' :: after) := by simp [Expr.render]
  have hopened := isFront_opening hfront.graphic hfront.closing_not_mem
  have hsigned : IsFront (front ++ ['('] ++ ['-']) :=
    isFront_symbol hopened.graphic hopened.closing_not_mem .subtract
  have hminus : Neutral ['-'] := neutral_symbol .subtract
  have hmatch : Balanced (front ++ ['('] ++ ['-'] ++ ')' :: after) := by
    simpa using balanced_group hminus hbalanced
  rw [htext, h _ _ hsigned (isBehind_closing hbehind.graphic) hmatch, Expr.eval]
  cases hvalue : e.eval with
  | error err => rfl
  | ok x =>
    obtain ⟨sign, y, habsorb, hopening, hclosing, hsign⟩ :=
      exists_absorbSign_minus (front ++ ['(']) (isFinite_eval he hvalue)
    have hwritten : written (front ++ ['('] ++ ['-']) x (')' :: after) =
        front ++ '(' :: (sign :: y.plain ++ ')' :: after) := by
      rw [written, habsorb]
      simp
    show (ofText (written (front ++ ['('] ++ ['-']) x (')' :: after))).eval =
      Except.ok x.neg >>= fun x => (ofText (written front x after)).eval
    rw [hwritten, eval_group hfront hbehind hopening hclosing hbalanced]
    exact bind_eq_of_map_eq (fun z => by rw [written_unsignedZero]) hsign

theorem reducesInContext_root {e : Expr} (he : e.HasClearSigns) (h : ReducesInContext e) :
    ReducesInContext (.root e) := by
  intro front after hfront hbehind hbalanced
  have htext : front ++ ((Expr.root e).render ++ after) =
      front ++ Token.rootWord ++ ['('] ++ (e.render ++ ')' :: after) := by simp [Expr.render]
  have hword : Text.IsGraphic (front ++ Token.rootWord) := hfront.graphic.append (by decide)
  have hnot : ')' ∉ front ++ Token.rootWord := by
    rw [List.mem_append, not_or]
    exact ⟨hfront.closing_not_mem, by decide⟩
  have hopened := isFront_opening hword hnot
  have hmatch : Balanced (front ++ Token.rootWord ++ ['('] ++ ')' :: after) := by
    simpa using balanced_group neutral_nil (balanced_rootWord hbalanced)
  rw [htext, h _ _ hopened (isBehind_closing hbehind.graphic) hmatch, Expr.eval]
  cases hvalue : e.eval with
  | error err => rfl
  | ok x =>
    have hwritten : written (front ++ Token.rootWord ++ ['(']) x (')' :: after) =
        front ++ Token.rootWord ++ '(' :: (x.plain ++ ')' :: after) := by
      rw [written_opening]
      simp
    show (ofText (written (front ++ Token.rootWord ++ ['(']) x (')' :: after))).eval =
      squareRoot x >>= fun x => (ofText (written front x after)).eval
    have hroot := eval_root hfront hbehind (opening_not_mem_plain x) (closing_not_mem_plain x) hbalanced
    rw [hwritten, hroot, Split.eval_plain (isFinite_eval he hvalue)]
    exact bind_eq_of_map_eq (fun z => by rw [written_unsignedZero]) (map_unsignedZero_squareRoot x)

theorem reducesInContext_binary {left right : Expr} (hleft : left.HasClearSigns)
    (hright : right.HasClearSigns) (op : Operator) (hl : ReducesInContext left)
    (hr : ReducesInContext right) : ReducesInContext (.binary left op right) := by
  intro front after hfront hbehind hbalanced
  have htext : front ++ ((Expr.binary left op right).render ++ after) =
      front ++ ['('] ++ (left.render ++ op.symbol :: (right.render ++ ')' :: after)) := by
    simp [Expr.render]
  have hopened := isFront_opening hfront.graphic hfront.closing_not_mem
  have hrest : Text.IsGraphic (right.render ++ ')' :: after) :=
    (isGraphic_render hright).append (isBehind_closing hbehind.graphic).graphic
  have hmatch : Balanced (front ++ ['('] ++ op.symbol :: (right.render ++ ')' :: after)) := by
    simpa using balanced_group ((neutral_symbol op).append (neutral_render right)) hbalanced
  rw [htext, hl _ _ hopened (isBehind_symbol op hrest) hmatch, Expr.eval]
  cases hx : left.eval with
  | error err => rfl
  | ok x =>
    have hfinite := isFinite_eval hleft hx
    have hread : IsFront (front ++ ['('] ++ x.plain ++ [op.symbol]) := by
      refine isFront_symbol (hopened.graphic.append (isGraphic_plain hfinite)) ?_ op
      rw [List.mem_append, not_or]
      exact ⟨hopened.closing_not_mem, closing_not_mem_plain x⟩
    have hmatch' : Balanced (front ++ ['('] ++ x.plain ++ [op.symbol] ++ ')' :: after) := by
      simpa using balanced_group ((neutral_plain x).append (neutral_symbol op)) hbalanced
    have hwritten : written (front ++ ['(']) x (op.symbol :: (right.render ++ ')' :: after)) =
        front ++ ['('] ++ x.plain ++ [op.symbol] ++ (right.render ++ ')' :: after) := by
      rw [written_opening]
      simp
    show (ofText (written (front ++ ['(']) x (op.symbol :: (right.render ++ ')' :: after)))).eval = _
    rw [hwritten, hr _ _ hread (isBehind_closing hbehind.graphic) hmatch']
    cases hy : right.eval with
    | error err => rfl
    | ok y =>
      -- the operator and the right value as they are written, one sign turned or none
      obtain ⟨op', y', habsorb, happly, hminus, hkept⟩ :=
        exists_absorbSign_symbol (front ++ ['('] ++ x.plain) op y
      have hfinite' : y'.isFinite = true := hkept.trans (isFinite_eval hright hy)
      have hopening : '(' ∉ x.plain ++ op'.symbol :: y'.plain := by
        have hop : '(' ≠ op'.symbol := by cases op' <;> decide
        simp [opening_not_mem_plain, hop]
      have hclosing : ')' ∉ x.plain ++ op'.symbol :: y'.plain := by
        have hop : ')' ≠ op'.symbol := by cases op' <;> decide
        simp [closing_not_mem_plain, hop]
      have hwritten' : written (front ++ ['('] ++ x.plain ++ [op.symbol]) y (')' :: after) =
          front ++ '(' :: (x.plain ++ op'.symbol :: y'.plain ++ ')' :: after) := by
        rw [written, habsorb]
        simp
      show (ofText (written (front ++ ['('] ++ x.plain ++ [op.symbol]) y (')' :: after))).eval =
        op.apply x y >>= fun x => (ofText (written front x after)).eval
      rw [hwritten', eval_group hfront hbehind hopening hclosing hbalanced,
        Split.eval_binary hfinite hfinite' hminus, ← happly]
      have hsame := map_unsignedZero_apply op' x y'
      exact bind_eq_of_map_eq (fun z => by rw [written_unsignedZero]) hsame

/-- **The text of an expression reduces to its value or ends with its error, wherever it stands.** -/
theorem reducesInContext {e : Expr} (he : e.HasClearSigns) : ReducesInContext e := by
  induction e with
  | number value =>
    -- a number without a sign is its own value
    obtain ⟨m, rfl⟩ := he
    intro front after _ _ _
    rfl
  | negate operand ih => exact reducesInContext_negate he (ih he)
  | binary left op right ihl ihr =>
    exact reducesInContext_binary he.1 he.2 op (ihl he.1) (ihr he.2)
  | root operand ih => exact reducesInContext_root he (ih he)

theorem eval_render {e : Expr} (he : e.HasClearSigns) :
    (ofText e.render).eval = e.eval.map unsignedZero := by
  have h := reducesInContext he [] [] isFront_nil isBehind_nil (closes_nil_iff.2 rfl)
  rw [List.nil_append, List.append_nil] at h
  rw [h]
  cases hvalue : e.eval with
  | error err => rfl
  | ok x =>
    show (ofText (written [] x [])).eval = .ok x.unsignedZero
    rw [written_nil]
    exact eval_of_literal? (literal?_plain (isFinite_eval he hvalue))

end Reduction

end DeskCalculator
