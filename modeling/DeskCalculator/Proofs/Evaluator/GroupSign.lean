import DeskCalculator.Proofs.Evaluator.Continuation
import DeskCalculator.Proofs.Evaluator.Spelling
import DeskCalculator.Proofs.Reduction.Order
import DeskCalculator.Proofs.Row.Fault

/-!
# The sign of a group

A group with a literal is written as its value, and the value may be below zero. The reduction turns the
sign in front then, and whether the text that comes out is well-formed depends on what stands before
that sign: behind a plus sign and a minus sign a number below zero leaves two plus signs, of which the
first one has no operand (`evaluate_negated_group`). In every other place a literal and its negative are
equally well-formed.
-/

namespace DeskCalculator

open Literal (isNumeral)
open Text (IsBlanks)

/-! ## Texts that end with a minus sign behind a plus sign -/

/-- The text ends with a minus sign, in front of which stands a plus sign. -/
def EndsPlusMinus (t : Text) : Prop :=
  ∃ front bl bl', IsBlanks bl ∧ IsBlanks bl' ∧ t = front ++ '+' :: (bl ++ '-' :: bl')

theorem endsPlusMinus_iff_trimEnd {t : Text} : EndsPlusMinus t ↔
    ∃ front bl, IsBlanks bl ∧ Text.trimEnd t = front ++ '+' :: (bl ++ ['-']) := by
  constructor
  · rintro ⟨front, bl, bl', hbl, hbl', rfl⟩
    have hend : Text.trimEnd bl' = [] := Text.trimEnd_append_of_isBlanks hbl' []
    refine ⟨front, bl, hbl, ?_⟩
    rw [Text.trimEnd_append_cons _ (by decide), Text.trimEnd_append_cons _ (by decide), hend]
  · rintro ⟨front, bl, hbl, h⟩
    obtain ⟨bl', hbl', heq⟩ := Text.eq_trimEnd_append t
    refine ⟨front, bl, bl', hbl, hbl', ?_⟩
    rw [heq, h]
    simp

theorem endsPlusMinus_trimStart_iff {t : Text} :
    EndsPlusMinus (Text.trimStart t) ↔ EndsPlusMinus t := by
  constructor
  · rintro ⟨front, bl, bl', hbl, hbl', h⟩
    obtain ⟨blanks, -, heq⟩ := Text.eq_append_trimStart t
    exact ⟨blanks ++ front, bl, bl', hbl, hbl', by rw [heq, h, List.append_assoc]⟩
  · rintro ⟨front, bl, bl', hbl, hbl', rfl⟩
    exact ⟨_, bl, bl', hbl, hbl', Text.trimStart_append_cons front (by decide) _⟩

theorem endsPlusMinus_map_key_iff {t : Text} : EndsPlusMinus (t.map key) ↔ EndsPlusMinus t := by
  have hsame {bl : Text} (h : IsBlanks bl) : bl.map key = bl :=
    map_key_of_not_mem (Text.not_mem_of_isBlanks h (by decide)) (Text.not_mem_of_isBlanks h (by decide))
  have hblanks {bl : Text} (h : IsBlanks (bl.map key)) : IsBlanks bl := by
    intro c hc
    have hkey := h (key c) (List.mem_map_of_mem hc)
    unfold key at hkey
    split at hkey
    next => revert hkey; decide
    next => revert hkey; decide
    next => exact hkey
  constructor
  · rintro ⟨front, bl, bl', hbl, hbl', h⟩
    obtain ⟨front, rest, rfl, rfl, hrest⟩ := List.map_eq_append_iff.1 h
    obtain ⟨plus, rest, rfl, hplus, hrest⟩ := List.map_eq_cons_iff.1 hrest
    obtain ⟨bl, last, rfl, rfl, hlast⟩ := List.map_eq_append_iff.1 hrest
    obtain ⟨minus, bl', rfl, hminus, rfl⟩ := List.map_eq_cons_iff.1 hlast
    obtain rfl := (key_eq_iff (by decide)).1 hplus
    obtain rfl := (key_eq_iff (by decide)).1 hminus
    exact ⟨front, bl, bl', hblanks hbl, hblanks hbl', rfl⟩
  · rintro ⟨front, bl, bl', hbl, hbl', rfl⟩
    refine ⟨front.map key, bl, bl', hbl, hbl', ?_⟩
    simp only [List.map_append, List.map_cons, hsame hbl, hsame hbl']
    rfl

/-- The word for the root is no minus sign. -/
theorem not_endsPlusMinus_of_trimEnd {t front : Text} {c : Char} (hc : c ≠ '-')
    (h : Text.trimEnd t = front ++ [c]) : ¬ EndsPlusMinus t := by
  intro hends
  obtain ⟨front', bl, -, h'⟩ := endsPlusMinus_iff_trimEnd.1 hends
  have hlast : (front' ++ '+' :: (bl ++ ['-'])).getLast? = some c := by
    rw [← h', h, List.getLast?_concat]
  simp [List.getLast?_append, List.getLast?_cons] at hlast
  exact hc hlast.symm

theorem not_endsPlusMinus_concat {front : Text} {c : Char} (hc : c ≠ '-')
    (hblank : Text.isBlank c = false) : ¬ EndsPlusMinus (front ++ [c]) :=
  not_endsPlusMinus_of_trimEnd hc (Text.trimEnd_append_cons front hblank [])

/-! ## A flat text -/

theorem Split.invalid_written_neg_iff {l r : Text} {y z : Binary64} (hy : y.isFinite = true)
    (habove : y.isBelowZero = false) (hbelow : y.neg.isBelowZero = true)
    (hl : ∀ e ∈ l.getLast?, Text.isBlank e = false ∧ isNumeral e = false)
    (hr : ∀ e ∈ r.head?, isNumeral e = false)
    (htrim : Text.trim (l ++ (y.plain ++ r)) = l ++ (y.plain ++ r))
    (h : (ofText (l ++ (y.plain ++ r))).eval = .ok z) :
    (∃ fault, (ofText (written l y.neg r)).eval = .error (.invalid fault)) ↔
      ∃ front bl, IsBlanks bl ∧ l = front ++ '+' :: (bl ++ ['-']) := by
  constructor
  · rintro ⟨fault, hinvalid⟩
    obtain ⟨c, hc, htext⟩ := Row.exists_of_eval h
    rcases hc.turn hy habove hbelow (htext.trans htrim) hl hr with ⟨c', hc', hwritten⟩ | ⟨d, j, hop, heq⟩
    · rw [← hwritten] at hinvalid
      exact absurd hinvalid (hc'.eval_ne_invalid fault)
    · refine ⟨d.text ++ j.before, j.behind, j.isBlanks_behind, ?_⟩
      rw [heq, Row.Joint.text, hop]
      simp [Sign.symbol, Sign.operator, Operator.symbol]
  · rintro ⟨front, bl, hbl, rfl⟩
    have hwritten : written (front ++ '+' :: (bl ++ ['-'])) y.neg r =
        front ++ '+' :: (bl ++ '+' :: (y.plain ++ r)) := by
      rcases Row.written_neg hy hbelow (front ++ '+' :: (bl ++ ['-'])) r with
        ⟨hnot, -⟩ | ⟨f, s, hf, hw⟩
      · exact absurd (by simp [Sign.symbol, Sign.operator, Operator.symbol, List.getLast?_cons])
          (hnot .minus)
      · rw [← List.cons_append, ← List.append_assoc] at hf
        obtain ⟨rfl, hsymbol⟩ := List.append_inj' hf rfl
        have hminus : [Sign.minus] = [s] := Sign.map_symbol_injective hsymbol
        obtain rfl := (List.cons.inj hminus).1
        rw [hw]
        simp [Sign.turn, Sign.symbol, Sign.operator, Operator.symbol]
    refine ⟨.emptySubexpression, ?_⟩
    rw [hwritten]
    exact Split.eval_plus_plus hbl (by simpa using h)

/-! ## A text with one group -/

theorem Group.splice_eq_written (g : Group) (x : Binary64) :
    g.splice x = written (Text.trimEnd g.front.1) x g.after := by
  simp [splice, written]

/-- Zeros of either sign are written alike. -/
theorem Group.splice_congr (g : Group) {x y : Binary64} (h : x.unsignedZero = y.unsignedZero) :
    g.splice x = g.splice y := by
  rw [splice_eq_written, splice_eq_written, ← written_unsignedZero, h, written_unsignedZero]

/-- The only group of a text. -/
structure Group.IsOnly (g : Group) : Prop where
  before : g.before.filter isParen = []
  after : g.after.filter isParen = []
  trimmed : Text.IsTrimmed g.text

namespace Group.IsOnly

variable {g : Group}

theorem filter_text (h : g.IsOnly) : g.text.filter isParen = ['(', ')'] := by
  rw [filter_isParen_text, h.before, h.after]
  rfl

theorem balanced (h : g.IsOnly) : Balanced g.text := by
  rw [balanced_iff_of_filter_eq (h.filter_text.trans (show _ = ['(', ')'].filter isParen from rfl))]
  exact neutral_nil.group.balanced

theorem of_balanced (hbefore : ')' ∉ g.before) (hafter : ')' ∉ g.after) (h : Balanced g.text)
    (htrim : Text.IsTrimmed g.text) : g.IsOnly := by
  have hcount := h.2
  have hinside := List.count_eq_zero.2 g.opening_not_mem
  have hinside' := List.count_eq_zero.2 g.closing_not_mem
  simp [text, List.count_append, List.count_eq_zero.2 hbefore, List.count_eq_zero.2 hafter, hinside,
    hinside'] at hcount
  have hnone {t : Text} (hopening : t.count '(' = 0) (hclosing : ')' ∉ t) : t.filter isParen = [] := by
    refine List.filter_eq_nil_iff.2 fun c hc hparen => ?_
    simp only [isParen, Bool.or_eq_true, beq_iff_eq] at hparen
    rcases hparen with rfl | rfl
    · exact List.count_eq_zero.1 hopening hc
    · exact hclosing hc
  exact ⟨hnone (by omega) hbefore, hnone (by omega) hafter, htrim⟩

theorem eval_text (h : g.IsOnly) :
    (Reduction.ofText g.text).eval = g.value >>= fun x => (Split.ofText (g.splice x)).eval := by
  have hfirst : ')' ∉ g.before := fun hmem => by
    simpa [h.before] using List.mem_filter.2 ⟨hmem, show isParen ')' = true from rfl⟩
  rw [Reduction.eval_text g hfirst h.balanced]
  cases hvalue : g.value with
  | error e => rfl
  | ok x =>
    have hnone : (g.splice x).filter isParen = [] := by
      rw [filter_isParen_splice, h.before, h.after]
      rfl
    have hnot {c : Char} (hc : isParen c = true) : c ∉ g.splice x := fun hmem => by
      simpa [hnone] using List.mem_filter.2 ⟨hmem, hc⟩
    have htrim := Text.trim_of_isTrimmed (isTrimmed_splice hvalue h.trimmed)
    have hne : g.splice x ≠ [] := by
      have hplain := Split.plain_ne_nil (isFinite_placed (g := g) (isFinite_of_value hvalue))
      simp [splice_eq, hplain]
    show (Reduction.ofText (Text.trim (g.splice x))).eval = (Split.ofText (g.splice x)).eval
    rw [htrim, Reduction.eval_of_not_mem htrim hne (hnot rfl) (hnot rfl)]

end Group.IsOnly

/-! ## A group with a literal -/

theorem Literal.exists_magnitude {d : Decimal} (h : (Literal.mk false d).value.isFinite = true) :
    ∃ m, (Literal.mk false d).value = .finite false m := by
  simp only [value, Decimal.toBinary64, Binary64.ofRatio] at h ⊢
  split at h
  next hlt => exact ⟨_, dif_pos hlt⟩
  next => cases h

theorem Split.eval_negated_literal {a : Text} (ha : Literal.isUnsigned a = true) {y : Binary64}
    (h : (ofText a).eval = .ok y) :
    (Literal.mk false (Literal.unsignedValue a)).value = y ∧ (∃ m, y = .finite false m) ∧
      (ofText ('-' :: a)).eval = .ok y.neg := by
  have hgraphic := isGraphic_of_isUnsigned ha
  have hread : Literal.ofText? (Text.trim a) = some ⟨false, Literal.unsignedValue a⟩ := by
    rw [Text.trim_of_isGraphic hgraphic, Literal.ofText?_of_isUnsigned ha]
  rw [eval_of_ofText?_trim hread] at h
  split at h
  next hfinite =>
    obtain rfl := Except.ok.inj h
    refine ⟨rfl, Literal.exists_magnitude hfinite, ?_⟩
    refine eval_of_literal? (hgraphic.cons (by decide)) (literal?_minus ha ?_)
    exact literal?_eq_ok_some_iff.2 ⟨_, Literal.ofText?_of_isUnsigned ha, rfl, hfinite⟩
  next => cases h

namespace Group

/-- The group with a minus sign in front of what it holds. -/
def negate (g : Group) : Group where
  before := g.before
  inside := '-' :: g.inside
  after := g.after
  opening_not_mem := by simp [g.opening_not_mem]
  closing_not_mem := by simp [g.closing_not_mem]

variable {g : Group} (ha : Literal.isUnsigned g.inside = true) {v : Binary64}

include ha

theorem value_negate (h : g.value = .ok v) :
    ∃ m, (Literal.mk false (Literal.unsignedValue g.inside)).value = .finite false m ∧
      (if g.front.2 then squareRoot (.finite false m) else .ok (.finite false m)) = .ok v ∧
      g.negate.value = if g.front.2 then squareRoot (.finite true m) else .ok (.finite true m) := by
  obtain ⟨hcheck, y, hy, hroot⟩ := exists_of_value h
  obtain ⟨hvalue, ⟨m, rfl⟩, hneg⟩ := Split.eval_negated_literal ha hy
  refine ⟨m, hvalue, hroot, ?_⟩
  have hcheck' : g.negate.checkNeighbours = .ok () := hcheck
  rw [value, hcheck']
  show ((Split.ofText ('-' :: g.inside)).eval >>= fun x =>
    if g.front.2 then squareRoot x else .ok x) = _
  rw [hneg]
  rfl

theorem exists_value_negate_of_isZero (h : g.value = .ok v)
    (hzero : (Literal.mk false (Literal.unsignedValue g.inside)).value.isZero = true) :
    ∃ v', g.negate.value = .ok v' ∧ v'.unsignedZero = v.unsignedZero := by
  obtain ⟨m, hm, hv, hv'⟩ := value_negate ha h
  rw [hm] at hzero
  obtain ⟨_, heq⟩ := Binary64.isZero_iff.1 hzero
  obtain ⟨-, rfl⟩ := Binary64.finite.inj heq
  rw [hv']
  cases hroot : g.front.2 with
  | false =>
    rw [hroot] at hv
    obtain rfl := Except.ok.inj hv
    exact ⟨_, rfl, rfl⟩
  | true =>
    rw [hroot] at hv
    have hv : squareRoot (.finite false .zero) = .ok v := hv
    have hsame := map_unsignedZero_squareRoot (.finite true .zero)
    rw [Binary64.unsignedZero_finite_zero, Binary64.zero, hv] at hsame
    exact map_eq_ok_iff.1 hsame.symm

end Group

/-- Without the word for the root, a value that is turned below zero is written behind the text before
the group. -/
theorem Group.IsOnly.invalid_splice_neg_iff {g : Group} (hg : g.IsOnly) (hroot : g.front.2 = false)
    {x y : Binary64} (hy : g.value = .ok y) (habove : y.isBelowZero = false)
    (hbelow : y.neg.isBelowZero = true) (h : (Split.ofText (g.splice y)).eval = .ok x) :
    (∃ fault, (Split.ofText (g.splice y.neg)).eval = .error (.invalid fault)) ↔
      EndsPlusMinus g.before := by
  obtain ⟨hcheck, -⟩ := exists_of_value hy
  have hfront : g.front.1 = g.before := by
    rcases g.before_eq with heq | ⟨hword, -⟩
    · rw [heq]
    · rw [hroot] at hword
      cases hword
  have hwritten : g.splice y = Text.trimEnd g.front.1 ++ (y.plain ++ g.after) := by
    rw [splice_eq_written, written, absorbSign, habove]
    rfl
  have hlast : ∀ e ∈ (Text.trimEnd g.front.1).getLast?,
      Text.isBlank e = false ∧ isNumeral e = false := by
    intro e he
    have hends := (checkNeighbours_eq_ok_iff.1 hcheck).1 e he
    simp only [endsOperand, Bool.or_eq_false_iff] at hends
    exact ⟨Text.isBlank_of_getLast?_trimEnd he, by simp [isNumeral, hends.1]⟩
  have htrim := Text.trim_of_isTrimmed (isTrimmed_splice hy hg.trimmed)
  rw [hwritten] at h htrim
  rw [splice_eq_written, Split.invalid_written_neg_iff (isFinite_of_value hy) habove hbelow hlast
    (head?_after hcheck) htrim h, endsPlusMinus_iff_trimEnd, hfront]

/-- **Where the sign of a literal in a group matters**, for the only group of a text. -/
theorem Group.IsOnly.invalid_negate_iff {g : Group} (hg : g.IsOnly) (hg' : g.negate.IsOnly)
    (ha : Literal.isUnsigned g.inside = true) {x : Binary64}
    (h : (Reduction.ofText g.text).eval = .ok x) :
    (∃ fault, (Reduction.ofText g.negate.text).eval = .error (.invalid fault)) ↔
      (Literal.mk false (Literal.unsignedValue g.inside)).value.isZero = false ∧
        EndsPlusMinus g.before := by
  rw [hg.eval_text] at h
  obtain ⟨v, hv, hsplit⟩ := bind_eq_ok_iff.1 h
  rw [hg'.eval_text]
  cases hzero : (Literal.mk false (Literal.unsignedValue g.inside)).value.isZero with
  | true =>
    obtain ⟨v', hv', hsame⟩ := exists_value_negate_of_isZero ha hv hzero
    have heval : (Split.ofText (g.negate.splice v')).eval = .ok x := by
      rw [← hsplit, ← g.splice_congr hsame]
      rfl
    rw [hv']
    show (∃ fault, (Split.ofText (g.negate.splice v')).eval = .error (.invalid fault)) ↔ _
    rw [heval]
    simp
  | false =>
    obtain ⟨m, hm, hroot, hneg⟩ := value_negate ha hv
    rw [hm] at hzero
    have hbelow : (Binary64.finite true m).isBelowZero = true := by
      simpa [Binary64.isBelowZero, Binary64.isZero] using hzero
    cases hfront : g.front.2 with
    | true =>
      have hword : Text.trimEnd g.before = (g.front.1 ++ ['s', 'q', 'r']) ++ ['t'] := by
        rcases g.before_eq with heq | ⟨-, heq⟩
        · rw [heq] at hfront
          cases hfront
        · simp [heq, Token.rootWord]
      have hnot := not_endsPlusMinus_of_trimEnd (by decide) hword
      have hdomain : g.negate.value = .error (.negativeRoot (.finite true m)) := by
        rw [hneg, hfront, if_pos rfl, squareRoot, if_pos hbelow]
      rw [hdomain]
      simp [hnot, bind, Except.bind]
    | false =>
      rw [hfront] at hroot hneg
      obtain rfl := Except.ok.inj hroot
      rw [hneg]
      refine (hg.invalid_splice_neg_iff hfront hv rfl hbelow hsplit).trans ?_
      simp

/-! ## The evaluation -/

/-- The checks before the reduction tell a group from its negative by the length of the text only. -/
theorem Evaluator.invalid_negate_iff (limits : Limits) {g : Group} (hbefore : ')' ∉ g.before)
    (hafter : ')' ∉ g.after) (ha : Literal.isUnsigned g.inside = true) (htrim : Text.IsTrimmed g.text)
    (htrim' : Text.IsTrimmed g.negate.text) {x : Binary64}
    (h : (Evaluator.mk .legacy limits).evaluateNormalized g.text = .ok x) :
    g.IsOnly ∧ ((∃ fault, (Evaluator.mk .legacy limits).evaluateNormalized g.negate.text =
        .error (.invalid fault)) ↔
      g.negate.text.length ≤ limits.maxLength ∧
        (Literal.mk false (Literal.unsignedValue g.inside)).value.isZero = false ∧
          EndsPlusMinus g.before) := by
  have hliteral (g : Group) : Literal.ofText? g.text = none :=
    literal?_eq_ok_none_iff.1 (Reduction.literal?_group g)
  have hmode (g : Group) (htrim : Text.IsTrimmed g.text) :
      Mode.legacy.evaluate g.text = (Reduction.ofText g.text).eval := by
    rw [Mode.evaluate, Text.trim_of_isTrimmed htrim]
  obtain ⟨hbalanced, hdepth, hvalue⟩ := evaluateNormalized_eq_ok (hliteral g) h
  have hg : g.IsOnly := .of_balanced hbefore hafter hbalanced htrim
  have hg' : g.negate.IsOnly := ⟨hg.before, hg.after, htrim'⟩
  refine ⟨hg, ?_⟩
  by_cases hlength : g.negate.text.length ≤ limits.maxLength
  · have hdepth' : nesting g.negate.text ≤ limits.maxDepth := by
      rwa [nesting_eq_of_filter_eq (hg'.filter_text.trans hg.filter_text.symm)]
    rw [evaluateNormalized_of_shallow hlength (hliteral _) hg'.balanced hdepth', hmode _ htrim',
      hg.invalid_negate_iff hg' ha ((hmode g htrim).symm.trans hvalue)]
    exact (and_iff_right hlength).symm
  · rw [evaluateNormalized_of_long (Nat.not_le.1 hlength)]
    refine iff_of_false ?_ fun hends => hlength hends.1
    rintro ⟨fault, hlong⟩
    cases hlong

theorem endsPlusMinus_of_spelt {h front : Text}
    (hfront : front = Text.trimStart (h.map key) ∨
      ∃ h', h = h' ++ ['√'] ∧ front = Text.trimStart (h'.map key ++ Token.rootWord)) :
    EndsPlusMinus front ↔ EndsPlusMinus h := by
  rcases hfront with rfl | ⟨h', rfl, rfl⟩
  · rw [endsPlusMinus_trimStart_iff, endsPlusMinus_map_key_iff]
  · have hword : h'.map key ++ Token.rootWord = (h'.map key ++ ['s', 'q', 'r']) ++ ['t'] := by
      simp [Token.rootWord]
    rw [endsPlusMinus_trimStart_iff, hword]
    exact iff_of_false (not_endsPlusMinus_concat (by decide) (by decide))
      (not_endsPlusMinus_concat (by decide) (by decide))

/-- **The sign of a literal in a group makes a text ill-formed in one place**: behind a plus sign and a
minus sign, where a number below zero leaves two plus signs. In all other places the text with the
negative literal is as well-formed as the one with the literal itself. -/
theorem evaluate_negated_group (limits : Limits) {h a t : Text} {x : Binary64} (hh : ')' ∉ h)
    (ht : ')' ∉ t) (ha : Literal.isUnsigned a = true)
    (hok : (Evaluator.mk .legacy limits).evaluate (h ++ '(' :: (a ++ ')' :: t)) = .ok x) :
    (∃ fault, (Evaluator.mk .legacy limits).evaluate (h ++ '(' :: ('-' :: a ++ ')' :: t)) =
        .error (.invalid fault)) ↔
      (normalize (h ++ '(' :: ('-' :: a ++ ')' :: t))).length ≤ limits.maxLength ∧
        (Literal.mk false (Literal.unsignedValue a)).value.isZero = false ∧ EndsPlusMinus h := by
  have hgraphic := isGraphic_of_isUnsigned ha
  obtain ⟨front, back, hfront, hback, hspelt, hcases⟩ := exists_normalize_group hh ht
  let g : Group := ⟨front, a, back, Literal.not_mem_of_isUnsigned ha (by decide),
    Literal.not_mem_of_isUnsigned ha (by decide)⟩
  have hnormal : normalize (h ++ '(' :: (a ++ ')' :: t)) = g.text := hspelt a hgraphic
  have hnormal' : normalize (h ++ '(' :: ('-' :: a ++ ')' :: t)) = g.negate.text :=
    hspelt ('-' :: a) (hgraphic.cons (by decide))
  have hne (g : Group) : g.text ≠ [] := by simp [Group.text]
  have htrimmed {s u : Text} (h : normalize s = u) : Text.IsTrimmed u := h ▸ Text.isTrimmed_trim _
  rw [Evaluator.evaluate_of_normalize_ne_nil _ (hnormal ▸ hne g), hnormal] at hok
  obtain ⟨honly, hiff⟩ := Evaluator.invalid_negate_iff limits hfront hback ha (htrimmed hnormal)
    (htrimmed hnormal') hok
  have hopening : '(' ∉ front := fun hmem =>
    List.filter_eq_nil_iff.1 honly.before '(' hmem rfl
  rw [Evaluator.evaluate_of_normalize_ne_nil _ (hnormal' ▸ hne g.negate), hnormal', hiff,
    ← endsPlusMinus_of_spelt (hcases hopening)]

/-- The theorem at `2+-(3)`, which is -1, and `2+-(-3)`. -/
theorem evaluate_negated_group_behind_signs :
    (Evaluator.mk .legacy .standard).evaluate (['2', '+', '-'] ++ '(' :: (['3'] ++ [')'])) =
        .ok (Decimal.toBinary64 true ⟨1, 0⟩) ∧
      ∃ fault, (Evaluator.mk .legacy .standard).evaluate
        (['2', '+', '-'] ++ '(' :: ('-' :: ['3'] ++ [')'])) = .error (.invalid fault) := by
  have hok : (Evaluator.mk .legacy .standard).evaluate (['2', '+', '-'] ++ '(' :: (['3'] ++ [')'])) =
      .ok (Decimal.toBinary64 true ⟨1, 0⟩) := by decide +kernel
  refine ⟨hok, (evaluate_negated_group .standard (by decide) (by decide) (by decide) hok).2 ?_⟩
  exact ⟨by decide +kernel, by decide +kernel, ['2'], [], [], Text.isBlanks_nil, Text.isBlanks_nil, rfl⟩

/-- It is not so that a literal and its negative are equally well-formed in every group. -/
theorem exists_negated_group_invalid :
    ¬ ∀ (limits : Limits) (h a t : Text), '(' ∉ h → ')' ∉ h → '(' ∉ t → ')' ∉ t →
      Literal.isUnsigned a = true → (Literal.mk false (Literal.unsignedValue a)).value.isZero = false →
      (∃ x, (Evaluator.mk .legacy limits).evaluate (h ++ '(' :: (a ++ ')' :: t)) = .ok x) →
      (normalize (h ++ '(' :: ('-' :: a ++ ')' :: t))).length ≤ limits.maxLength →
      ∀ fault, (Evaluator.mk .legacy limits).evaluate (h ++ '(' :: ('-' :: a ++ ')' :: t)) ≠
        .error (.invalid fault) := by
  intro h
  have hok : (Evaluator.mk .legacy .standard).evaluate (['2', '+', '-'] ++ '(' :: (['3'] ++ [')'])) =
      .ok (Decimal.toBinary64 true ⟨1, 0⟩) := by decide +kernel
  refine h .standard ['2', '+', '-'] ['3'] [] (by decide) (by decide) nofun nofun (by decide)
    (by decide +kernel) ⟨_, hok⟩ (by decide +kernel) .emptySubexpression ?_
  decide +kernel

end DeskCalculator
