import DeskCalculator.Proofs.Evaluator.Checks
import DeskCalculator.Proofs.Expr.Reading
import DeskCalculator.Proofs.Reduction.Step
import DeskCalculator.Proofs.Token.Inventory

/-!
# What a reduction accepts

A text that reduces to a value is an expression of the grammar (`evaluate_accepts`). The tokens of
the text lead from the start to the finish of an expression: this holds of the literal or the flat
text at the end of the reduction (`Split.leadsTo_of_eval`), and it is carried back through each step
(`Group.leadsTo_text_of_splice`). The value that a step writes is an operand, and so is the group in
its place; the text in front of the two leads to one place, whether a sign was turned around there
or not.
-/

namespace DeskCalculator

open Literal (isNumeral)

/-- The text is made of tokens, and they lead from one place to another. -/
def LeadsTo (p : Place) (t : Text) (q : Place) : Prop :=
  ∃ ts, tokenize t = .ok ts ∧ p.run ts = some q

namespace LeadsTo

variable {p q : Place} {t l r : Text}

theorem nil_iff : LeadsTo p [] q ↔ p = q := by
  constructor
  · rintro ⟨ts, hts, hrun⟩
    rw [tokenize_nil] at hts
    obtain rfl := Except.ok.inj hts
    exact Option.some.inj hrun
  · rintro rfl
    exact ⟨[], tokenize_nil, rfl⟩

theorem append_iff (h : Apart l r) :
    LeadsTo p (l ++ r) q ↔ ∃ m, LeadsTo p l m ∧ LeadsTo m r q := by
  constructor
  · rintro ⟨ts, hts, hrun⟩
    obtain ⟨us, vs, hus, hvs, rfl⟩ := (tokenize_append_eq_ok_iff h).1 hts
    rw [Place.run_append] at hrun
    obtain ⟨m, hm, hq⟩ := Option.bind_eq_some_iff.1 hrun
    exact ⟨m, ⟨us, hus, hm⟩, vs, hvs, hq⟩
  · rintro ⟨m, ⟨us, hus, hm⟩, vs, hvs, hq⟩
    refine ⟨us ++ vs, (tokenize_append_eq_ok_iff h).2 ⟨us, vs, hus, hvs, rfl⟩, ?_⟩
    rw [Place.run_append_of_run hm]
    exact hq

theorem cons_iff {c : Char} {token : Token}
    (hcons : tokenize (c :: t) = (tokenize t).map (token :: ·)) :
    LeadsTo p (c :: t) q ↔ ∃ m, p.step token = some m ∧ LeadsTo m t q := by
  constructor
  · rintro ⟨ts, hts, hrun⟩
    rw [hcons, map_eq_ok_iff] at hts
    obtain ⟨us, hus, rfl⟩ := hts
    obtain ⟨m, hm, hq⟩ := Option.bind_eq_some_iff.1 hrun
    exact ⟨m, hm, us, hus, hq⟩
  · rintro ⟨m, hm, us, hus, hq⟩
    refine ⟨token :: us, by rw [hcons, hus]; rfl, ?_⟩
    rw [Place.run_cons, hm]
    exact hq

theorem symbol_cons_iff (op : Operator) :
    LeadsTo p (op.symbol :: t) q ↔ ∃ m, p.step (.operator op) = some m ∧ LeadsTo m t q :=
  cons_iff (tokenize_symbol_cons op t)

theorem opening_cons_iff :
    LeadsTo p ('(' :: t) q ↔ ∃ m, p.step .opening = some m ∧ LeadsTo m t q :=
  cons_iff (tokenize_opening_cons t)

theorem closing_cons_iff :
    LeadsTo p (')' :: t) q ↔ ∃ m, p.step .closing = some m ∧ LeadsTo m t q :=
  cons_iff (tokenize_closing_cons t)

theorem trim_iff : LeadsTo p (Text.trim t) q ↔ LeadsTo p t q := by
  rw [LeadsTo, tokenize_trim]
  rfl

theorem trimEnd_iff : LeadsTo p (Text.trimEnd t) q ↔ LeadsTo p t q := by
  rw [LeadsTo, tokenize_trimEnd]
  rfl

theorem of_literal? {x : Binary64} (h : literal? t = .ok (some x)) (d : Nat) :
    LeadsTo ⟨d, .operand⟩ t ⟨d, .operator⟩ := by
  obtain ⟨signs, y, hsigns, hts⟩ := tokenize_of_literal? h
  refine ⟨_, hts, ?_⟩
  rw [Place.run_append_of_run (Place.run_signs d hsigns)]
  rfl

end LeadsTo

theorem Split.leadsTo_of_eval {t : Text} {x : Binary64} (h : (Split.ofText t).eval = .ok x)
    (d : Nat) : LeadsTo ⟨d, .operand⟩ t ⟨d, .operator⟩ := by
  rw [← LeadsTo.trim_iff]
  fun_induction Split.ofText t generalizing x with
  | case1 => simp [eval] at h
  | case2 => simp [eval] at h
  | case3 t _ value hvalue => exact LeadsTo.of_literal? hvalue d
  | case4 => simp [eval] at h
  | case5 t _ _ op left right hcut ihleft ihright =>
    obtain ⟨y, hleft, h⟩ := bind_eq_ok_iff.1 h
    obtain ⟨z, hright, -⟩ := bind_eq_ok_iff.1 h
    have hl := LeadsTo.trim_iff.1 (ihleft hleft)
    have hr := LeadsTo.trim_iff.1 (ihright hright)
    rw [eq_append_of_cut? hcut, LeadsTo.append_iff (apart_cons_of_isMark _ (isMark_symbol op) _)]
    exact ⟨_, hl, (LeadsTo.symbol_cons_iff op).2 ⟨_, rfl, hr⟩⟩

/-! ## What stands before a place -/

namespace Place

theorem step_eq_operator {p : Place} {token : Token} {d : Nat}
    (h : p.step token = some ⟨d, .operator⟩) : token = .closing ∨ ∃ value, token = .number value := by
  unfold step at h
  split at h <;> simp_all

theorem step_eq_operand {p : Place} {token : Token} {d : Nat}
    (h : p.step token = some ⟨d, .operand⟩) : token = .opening ∨ ∃ op, token = .operator op := by
  unfold step at h
  split at h <;> simp_all

/-- A sign may stand wherever the other one may. -/
theorem step_of_isAdditive {op op' : Operator} (h : op.IsAdditive) (h' : op'.IsAdditive)
    (p : Place) : p.step (.operator op) = p.step (.operator op') := by
  obtain ⟨d, want⟩ := p
  rcases h with rfl | rfl <;> rcases h' with rfl | rfl <;> cases want <;> rfl

end Place

namespace LeadsTo

variable {p q : Place} {t : Text}

theorem exists_last_step {c : Char} (h : LeadsTo p t q) (hlast : t.getLast? = some c)
    (hc : Text.isBlank c = false) :
    ∃ m token, token.EndsWith c ∧ Place.step m token = some q := by
  obtain ⟨ts, hts, hrun⟩ := h
  obtain ⟨front, token, rfl, hends⟩ := exists_last_token hlast hc hts
  rw [Place.run_append] at hrun
  obtain ⟨m, -, hq⟩ := Option.bind_eq_some_iff.1 hrun
  rw [Place.run_cons] at hq
  obtain ⟨q', hstep, hnil⟩ := Option.bind_eq_some_iff.1 hq
  obtain rfl := Option.some.inj hnil
  exact ⟨m, token, hends, hstep⟩

theorem want_ne_operator (h : LeadsTo .start t q)
    (hlast : ∀ c ∈ t.getLast?, Text.isBlank c = false ∧ Group.endsOperand c = false) :
    q.want ≠ .operator := by
  obtain ⟨d, want⟩ := q
  rintro rfl
  cases hcase : t.getLast? with
  | none =>
    obtain rfl := List.getLast?_eq_none_iff.1 hcase
    cases nil_iff.1 h
  | some c =>
    obtain ⟨hblank, hoperand⟩ := hlast c hcase
    simp only [Group.endsOperand, Bool.or_eq_false_iff, beq_eq_false_iff_ne] at hoperand
    obtain ⟨m, token, hends, hstep⟩ := h.exists_last_step hcase hblank
    rcases Place.step_eq_operator hstep with rfl | ⟨value, rfl⟩
    · exact hoperand.2 hends
    · have hnumeral : isNumeral c = true := hends
      simp [isNumeral, hoperand] at hnumeral

/-- A literal is no group behind the word for a root. -/
theorem of_literal?_inv {x : Binary64} (hx : literal? t = .ok (some x)) (h : LeadsTo p t q)
    (hp : p.want ≠ .operator) : p.want = .operand ∧ q = ⟨p.depth, .operator⟩ := by
  obtain ⟨d, want⟩ := p
  have hwant : want = .operand := by
    cases want with
    | operand => rfl
    | operator => exact absurd rfl hp
    | group =>
      obtain ⟨signs, y, hsigns, hts⟩ := tokenize_of_literal? hx
      obtain ⟨ts, hts', hrun⟩ := h
      rw [hts] at hts'
      obtain rfl := Except.ok.inj hts'
      cases signs with
      | nil => cases hrun
      | cons op signs => cases hrun
  obtain rfl := hwant
  refine ⟨rfl, ?_⟩
  obtain ⟨ts, hts, hrun⟩ := of_literal? hx d
  obtain ⟨ts', hts', hrun'⟩ := h
  rw [hts] at hts'
  obtain rfl := Except.ok.inj hts'
  rw [hrun] at hrun'
  exact (Option.some.inj hrun').symm

theorem apart_rootWord {d : Nat} (h : LeadsTo p t ⟨d, .operand⟩) : Apart t Token.rootWord := by
  intro c hc s hs
  obtain rfl : s = 's' := (Option.some.inj hs).symm
  have halpha : c.isAlpha = false := by
    cases hblank : Text.isBlank c with
    | true => exact (isMark_of_isBlank hblank).2
    | false =>
      obtain ⟨m, token, hends, hstep⟩ := h.exists_last_step hc hblank
      rcases Place.step_eq_operand hstep with rfl | ⟨op, rfl⟩
      · rw [show c = '(' from hends]
        decide
      · rw [show c = op.symbol from hends]
        exact (isMark_symbol op).2
  rw [halpha, show isNumeral 's' = false from by decide]
  simp

end LeadsTo

/-! ## One step, read backwards -/

namespace Group

variable {g : Group} {x : Binary64} {p : Place}

/-- A turned sign leads to the same place. -/
theorem leadsTo_of_leadsTo_placed (h : LeadsTo .start (g.placed x).1 p) :
    LeadsTo .start (Text.trimEnd g.front.1) p := by
  have turn (f : Text) (op op' : Operator) (hop : op.IsAdditive) (hop' : op'.IsAdditive)
      (hf : LeadsTo .start (f ++ [op.symbol]) p) : LeadsTo .start (f ++ [op'.symbol]) p := by
    rw [LeadsTo.append_iff (apart_cons_of_isMark _ (isMark_symbol _) _)] at hf ⊢
    obtain ⟨m, hm, hstep⟩ := hf
    refine ⟨m, hm, ?_⟩
    rw [LeadsTo.symbol_cons_iff] at hstep ⊢
    rwa [Place.step_of_isAdditive hop' hop]
  unfold placed at h
  rcases absorbSign_cases (Text.trimEnd g.front.1) x with heq | ⟨-, f, ⟨hf, heq⟩ | ⟨hf, heq⟩⟩
  · rwa [heq] at h
  · rw [heq] at h
    rw [hf]
    exact turn f .add .subtract (.inl rfl) (.inr rfl) h
  · rw [heq] at h
    rw [hf]
    exact turn f .subtract .add (.inr rfl) (.inl rfl) h

/-- Behind the text before a group an operand is expected, or the group of a root. -/
theorem leadsTo_before {d : Nat} (h : LeadsTo .start (Text.trimEnd g.front.1) ⟨d, .operand⟩) :
    LeadsTo .start g.before ⟨d, if g.front.2 then .group else .operand⟩ := by
  rw [LeadsTo.trimEnd_iff] at h
  rcases g.before_eq with hfront | ⟨hroot, hbefore⟩
  · rw [hfront] at h ⊢
    exact h
  · rw [hroot, ← LeadsTo.trimEnd_iff, hbefore, LeadsTo.append_iff h.apart_rootWord]
    exact ⟨_, h, [.root], by decide +kernel, rfl⟩

theorem apart_placed_plain (hcheck : g.checkNeighbours = .ok ()) {y : Binary64}
    (hy : y.isFinite = true) (r : Text) : Apart (g.placed x).1 (y.plain ++ r) := by
  obtain ⟨hhead, last, hlast, -⟩ := plain_ends hy
  intro c hc d hd
  have hd' : d ∈ y.plain.head? := by
    rw [List.head?_append] at hd
    cases hplain : y.plain with
    | nil => simp [hplain] at hlast
    | cons d' t =>
      rw [hplain] at hd
      exact hd
  have hoperand := (getLast?_placed hcheck c hc).2
  simp only [endsOperand, Bool.or_eq_false_iff] at hoperand
  simp [hhead d hd', isNumeral, hoperand]

theorem apart_plain_after (hcheck : g.checkNeighbours = .ok ()) {y : Binary64}
    (hy : y.isFinite = true) : Apart y.plain g.after := by
  obtain ⟨-, last, hlast, hnumeral⟩ := plain_ends hy
  intro c hc d hd
  obtain rfl : last = c := Option.mem_unique hlast hc
  simp [not_isAlpha_of_isNumeral hnumeral, head?_after hcheck d hd]

/-- **The text of a group leads wherever the text with its value does.** -/
theorem leadsTo_text_of_splice (hx : g.value = .ok x) (h : LeadsTo .start (g.splice x) .finish) :
    LeadsTo .start g.text .finish := by
  obtain ⟨hcheck, y, hinside, -⟩ := exists_of_value hx
  have hfinite := isFinite_placed (g := g) (isFinite_of_value hx)
  rw [splice_eq, List.append_assoc, LeadsTo.append_iff (apart_placed_plain hcheck hfinite _)] at h
  obtain ⟨m, hfront, h⟩ := h
  rw [LeadsTo.append_iff (apart_plain_after hcheck hfinite)] at h
  obtain ⟨m', hplain, hrest⟩ := h
  -- the value is an operand: no other one ends in front of it, and it is no group for a root
  have hwant := hfront.want_ne_operator (getLast?_placed hcheck)
  obtain ⟨hoperand, rfl⟩ := LeadsTo.of_literal?_inv (literal?_plain hfinite) hplain hwant
  obtain ⟨d, want⟩ := m
  obtain rfl : want = .operand := hoperand
  -- the group is one too: its front leads to the same place, its inside through one group more
  have hbefore := leadsTo_before (leadsTo_of_leadsTo_placed hfront)
  rw [text, LeadsTo.append_iff (apart_cons_of_isMark _ (by decide) _)]
  refine ⟨_, hbefore, LeadsTo.opening_cons_iff.2 ⟨⟨d + 1, .operand⟩, ?_, ?_⟩⟩
  · split <;> rfl
  · rw [LeadsTo.append_iff (apart_cons_of_isMark _ (by decide) _)]
    exact ⟨_, Split.leadsTo_of_eval hinside (d + 1), LeadsTo.closing_cons_iff.2 ⟨_, rfl, hrest⟩⟩

end Group

/-! ## The whole reduction -/

theorem Reduction.leadsTo_of_eval {t : Text} {x : Binary64} (h : (ofText t).eval = .ok x) :
    LeadsTo .start t .finish := by
  fun_induction ofText t with
  | case1 => simp [eval] at h
  | case2 t value hvalue => exact LeadsTo.of_literal? hvalue 0
  | case3 => simp [eval] at h
  | case4 t hliteral hscan hgroup => exact Split.leadsTo_of_eval h 0
  | case5 => simp [eval] at h
  | case6 t hliteral hscan g hgroup result hresult ih =>
    have hnext := LeadsTo.trim_iff.1 (ih h)
    rw [← Group.text_of_first? hgroup]
    obtain ⟨y, hvalue, rfl⟩ := Group.resolve_eq_ok_iff.1 hresult
    exact Group.leadsTo_text_of_splice hvalue hnext

/-- **Whatever a reduction gives a value is an expression of the grammar.** -/
theorem evaluate_accepts (limits : Limits) (s : Text) (x : Binary64)
    (h : (Evaluator.mk .legacy limits).evaluate s = .ok x) (hne : normalize s ≠ []) :
    ∃ ts e, tokenize (normalize s) = .ok ts ∧ Derives .sum ts e ∧
      Expr.parse (normalize s) = .ok e := by
  rw [Evaluator.evaluate_of_normalize_ne_nil _ hne, Evaluator.evaluateNormalized] at h
  have hleads : LeadsTo .start (normalize s) .finish := by
    split at h
    next => cases h
    next =>
      split at h
      next => cases h
      next value hvalue => exact LeadsTo.of_literal? hvalue 0
      next =>
        split at h
        next => cases h
        next =>
          split at h
          next => cases h
          next => exact LeadsTo.trim_iff.1 (Reduction.leadsTo_of_eval h)
  obtain ⟨ts, hts, hrun⟩ := hleads
  obtain ⟨e, he⟩ := wellShaped_iff_derives.1 hrun
  refine ⟨ts, e, hts, he, ?_⟩
  rw [Expr.parse, hts]
  exact ofTokens_of_derives he

/-- A minus sign that is turned on the way to the value. -/
theorem evaluate_accepts_turned_sign :
    (Evaluator.mk .legacy .standard).evaluate "3-(2-√(9))".toList =
        .ok (Decimal.toBinary64 false ⟨4, 0⟩) ∧
      ∃ ts e, tokenize (normalize "3-(2-√(9))".toList) = .ok ts ∧ Derives .sum ts e ∧
        Expr.parse (normalize "3-(2-√(9))".toList) = .ok e := by
  have hvalue : (Evaluator.mk .legacy .standard).evaluate "3-(2-√(9))".toList =
      .ok (Decimal.toBinary64 false ⟨4, 0⟩) := by decide +kernel
  exact ⟨hvalue, evaluate_accepts _ _ _ hvalue (by decide +kernel)⟩

end DeskCalculator
