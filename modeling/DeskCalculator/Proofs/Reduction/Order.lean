import DeskCalculator.Proofs.Evaluator.Checks
import DeskCalculator.Proofs.Parens.Pairs
import DeskCalculator.Proofs.Reduction.Flat
import DeskCalculator.Proofs.Reduction.Parens

/-!
# The order of the groups

A reduction resolves the group that closes first. It may as well resolve any innermost pair at each
step: `Reduction.Ends t o` says that some sequence of such choices ends with `o`, and if one sequence
ends with a value then all do, with the same one (`reduction_confluent`).

Two groups of one text do not meet, and one step leaves the other group as it is but for the text
beside it. A group behind an operand has a front of its own between the two (`Group.front_prepend`),
in which its sign and its word for the root stand, so it is valued and written there whatever is in
front (`Group.value_prepend`, `Group.splice_prepend`). The group before it sees how that text starts
and nothing else, and a sign that is turned is still no operand (`Group.startsOperand_splice`). Hence
the two steps can be exchanged (`Group.Precedes.exchange`), and by induction on a sequence that ends
with a value, every group can be resolved first (`Reduction.Ends.resolve`).
-/

namespace DeskCalculator

open Literal (isNumeral)

namespace Text

theorem dropEnding?_append_of_not_mem {ending pre : Text} {c : Char} (hpre : pre.getLast? = some c)
    (hc : c ∉ ending) (t : Text) :
    dropEnding? ending (pre ++ t) = (dropEnding? ending t).map (pre ++ ·) := by
  cases h : dropEnding? ending t with
  | some f => rw [eq_append_of_dropEnding? h, ← List.append_assoc, dropEnding?_append, Option.map_some]
  | none =>
    cases h' : dropEnding? ending (pre ++ t) with
    | none => rfl
    | some f =>
      rcases List.append_eq_append_iff.1 (eq_append_of_dropEnding? h') with
        ⟨l, rfl, ht⟩ | ⟨l, hl, ht⟩
      · rw [ht, dropEnding?_append] at h
        cases h
      · cases hlast : l.getLast? with
        | none =>
          rw [List.getLast?_eq_none_iff.1 hlast, List.nil_append] at ht
          subst ht
          have hwhole := dropEnding?_append [] ending
          rw [List.nil_append, h] at hwhole
          cases hwhole
        | some d =>
          rw [hl, List.getLast?_append, hlast] at hpre
          obtain rfl := Option.some.inj hpre
          exact absurd (by rw [ht]; simp [List.mem_of_getLast? hlast]) hc

end Text

namespace Group

/-! ## Behind an operand -/

/-- The group in a text with another text in front. -/
def prepend (pre : Text) (g : Group) : Group := { g with before := pre ++ g.before }

theorem text_prepend (pre : Text) (g : Group) : (g.prepend pre).text = pre ++ g.text := by
  simp [text, prepend]

theorem not_isBlank_of_endsOperand {c : Char} (h : endsOperand c = true) :
    Text.isBlank c = false := by
  simp only [endsOperand, Bool.or_eq_true, beq_iff_eq] at h
  rcases h with (h | rfl) | rfl
  · exact Text.not_isBlank_of_isDigit h
  · decide
  · decide

theorem not_mem_of_endsOperand {c : Char} (h : endsOperand c = true) {t : Text}
    (ht : t.any endsOperand = false) : c ∉ t := by
  intro hc
  rw [List.any_eq_true.2 ⟨c, hc, h⟩] at ht
  cases ht

theorem absorbSign_append {pre : Text} {c : Char} (hpre : pre.getLast? = some c)
    (hsign : c ∉ ['-', '+']) (f : Text) (x : Binary64) :
    absorbSign (pre ++ f) x = (pre ++ (absorbSign f x).1, (absorbSign f x).2) := by
  unfold absorbSign
  split
  · rcases List.eq_nil_or_concat f with rfl | ⟨f, d, rfl⟩
    · rw [List.append_nil, hpre]
      simp only [List.mem_cons, List.not_mem_nil, or_false, not_or] at hsign
      simp [hsign]
    · rw [List.concat_eq_append, ← List.append_assoc, List.getLast?_concat, List.getLast?_concat,
        List.dropLast_concat, List.dropLast_concat]
      split <;> simp
  · rfl

section

variable {pre : Text} {c : Char} (hpre : pre.getLast? = some c) (hc : endsOperand c = true)
  (g : Group) {x : Binary64}

include hpre hc

theorem front_prepend : (g.prepend pre).front = (pre ++ g.front.1, g.front.2) := by
  have htrim := Text.trimEnd_append_of_getLast? hpre (not_isBlank_of_endsOperand hc) g.before
  have hword : c ∉ Token.rootWord := not_mem_of_endsOperand hc (by decide)
  unfold front prepend
  rw [htrim, Text.dropEnding?_append_of_not_mem hpre hword]
  cases Text.dropEnding? Token.rootWord (Text.trimEnd g.before) <;> rfl

theorem trimEnd_front_prepend :
    Text.trimEnd (g.prepend pre).front.1 = pre ++ Text.trimEnd g.front.1 := by
  rw [front_prepend hpre hc]
  exact Text.trimEnd_append_of_getLast? hpre (not_isBlank_of_endsOperand hc) _

theorem splice_prepend : (g.prepend pre).splice x = pre ++ g.splice x := by
  unfold splice
  rw [trimEnd_front_prepend hpre hc, absorbSign_append hpre (not_mem_of_endsOperand hc (by decide))]
  simp [prepend]

/-- What stands in front of a group behind an operand has to be more than the word for the root. -/
theorem value_prepend :
    (g.prepend pre).value =
      if Text.trimEnd g.front.1 = [] then .error (.invalid .operatorMissingBefore)
      else g.value := by
  have hfront := front_prepend hpre hc g
  unfold value checkNeighbours
  rw [trimEnd_front_prepend hpre hc, hfront]
  by_cases hnil : Text.trimEnd g.front.1 = []
  · rw [if_pos hnil, hnil, List.append_nil, hpre, Option.any_some, if_pos hc]
    rfl
  · rw [if_neg hnil]
    obtain ⟨f, d, hd⟩ := List.eq_nil_or_concat (Text.trimEnd g.front.1) |>.resolve_left hnil
    rw [hd, List.concat_eq_append, ← List.append_assoc, List.getLast?_concat, List.getLast?_concat]
    rfl

end

/-! ## In front of a group -/

/-- The text behind a group matters for its value by how it starts. -/
theorem value_congr {before inside after after' : Text} (hopening : '(' ∉ inside)
    (hclosing : ')' ∉ inside)
    (h : (Text.trimStart after).head?.any startsOperand =
      (Text.trimStart after').head?.any startsOperand) :
    value ⟨before, inside, after, hopening, hclosing⟩ =
      value ⟨before, inside, after', hopening, hclosing⟩ := by
  unfold value checkNeighbours
  rw [h]
  rfl

theorem exists_absorbSign_concat (f : Text) {c : Char} (hc : Text.isBlank c = false) (x : Binary64) :
    ∃ d, (absorbSign (f ++ [c]) x).1 = f ++ [d] ∧ Text.isBlank d = false ∧
      startsOperand d = startsOperand c := by
  rcases absorbSign_cases (f ++ [c]) x with heq | ⟨-, f', ⟨hf, heq⟩ | ⟨hf, heq⟩⟩
  · exact ⟨c, by rw [heq], hc, rfl⟩
  · obtain ⟨rfl, h⟩ := List.append_inj' hf rfl
    obtain rfl := (List.cons.inj h).1
    exact ⟨'+', by rw [heq], by decide, by decide⟩
  · obtain ⟨rfl, h⟩ := List.append_inj' hf rfl
    obtain rfl := (List.cons.inj h).1
    exact ⟨'-', by rw [heq], by decide, by decide⟩

theorem before_eq_append (g : Group) : ∃ r, g.before = Text.trimEnd g.front.1 ++ r := by
  obtain ⟨blanks, -, hfront⟩ := Text.eq_trimEnd_append g.front.1
  rcases g.before_eq with h | ⟨-, h⟩
  · exact ⟨blanks, by rw [← hfront, h]⟩
  · obtain ⟨blanks', -, hbefore⟩ := Text.eq_trimEnd_append g.before
    refine ⟨blanks ++ (Token.rootWord ++ blanks'), ?_⟩
    rw [← List.append_assoc, ← hfront, ← List.append_assoc, ← h]
    exact hbefore

/-- A group that is resolved leaves a text that starts with an operand if the text before did. -/
theorem startsOperand_splice {g : Group} (hne : Text.trimEnd g.front.1 ≠ []) (x : Binary64)
    (r : Text) :
    (Text.trimStart (g.before ++ r)).head?.any startsOperand =
      (Text.trimStart (g.splice x)).head?.any startsOperand := by
  obtain ⟨f, c, hf⟩ := List.eq_nil_or_concat (Text.trimEnd g.front.1) |>.resolve_left hne
  rw [List.concat_eq_append] at hf
  have hc : Text.isBlank c = false :=
    Text.isBlank_of_getLast?_trimEnd (t := g.front.1) (by rw [hf, List.getLast?_concat])
  obtain ⟨r', hbefore⟩ := g.before_eq_append
  obtain ⟨d, hplaced, hd, hsame⟩ := exists_absorbSign_concat f hc x
  rw [hbefore, splice, hf, hplaced, List.append_assoc, List.append_assoc, List.append_assoc,
    List.append_assoc]
  simp only [List.singleton_append]
  rw [Text.head?_trimStart_append_cons f hc, Text.head?_trimStart_append_cons f hd]
  cases (Text.trimStart f).head? with
  | none => exact hsame.symm
  | some e => rfl

/-! ## Two steps -/

theorem isTrimmed_splice {g : Group} {x : Binary64} (hx : g.value = .ok x)
    (h : Text.IsTrimmed g.text) : Text.IsTrimmed (g.splice x) := by
  have hfinite := isFinite_placed (g := g) (isFinite_of_value hx)
  have hfront : ∀ c ∈ (Text.trimEnd g.front.1).head?, Text.isBlank c = false := by
    intro c hc
    obtain ⟨r, hbefore⟩ := g.before_eq_append
    refine h.head c ?_
    rw [text, hbefore, List.append_assoc, List.head?_append, Option.mem_def.1 hc]
    rfl
  -- a sign that is turned is still the first character
  have turn {f : Text} {c d : Char} (hd : Text.isBlank d = false)
      (hf : ∀ e ∈ (f ++ [c]).head?, Text.isBlank e = false) :
      ∀ e ∈ (f ++ [d]).head?, Text.isBlank e = false := by
    cases f with
    | nil => simpa using hd
    | cons e f => simpa using hf
  have hplaced : ∀ c ∈ (g.placed x).1.head?, Text.isBlank c = false := by
    unfold placed
    rcases absorbSign_cases (Text.trimEnd g.front.1) x with heq | ⟨-, f, ⟨hf, heq⟩ | ⟨hf, heq⟩⟩
    · rwa [heq]
    · rw [heq]
      rw [hf] at hfront
      exact turn (by decide) hfront
    · rw [heq]
      rw [hf] at hfront
      exact turn (by decide) hfront
  have hafter : ∀ c ∈ g.after.getLast?, Text.isBlank c = false := by
    intro c hc
    refine h.last c ?_
    rw [text, List.getLast?_append, List.getLast?_cons, List.getLast?_append, List.getLast?_cons,
      Option.mem_def.1 hc]
    rfl
  exact Text.isTrimmed_append hplaced (Text.isTrimmed_of_isGraphic (isGraphic_plain hfinite))
    (Split.plain_ne_nil hfinite) hafter

/-- **Two groups can be resolved in either order.** With the second one written as `y`, the first one
is a group with its value, and with the first one written as `x`, so is the second one; with both
written the text is the same. -/
theorem Precedes.exchange {g g' : Group} (h : g.Precedes g') :
    ∃ (first second : Binary64 → Group),
      (∀ y, g'.value = .ok y → (first y).text = g'.splice y ∧ (first y).value = g.value) ∧
      (∀ x, g.value = .ok x → (second x).text = g.splice x ∧ (second x).value = g'.value) ∧
      ∀ x y, g.value = .ok x → (first y).splice x = (second x).splice y := by
  obtain ⟨before, inside, after, hopening, hclosing⟩ := g
  obtain ⟨before', inside', after', hopening', hclosing'⟩ := g'
  obtain ⟨between, hafter, hbefore⟩ := h
  dsimp only at hafter hbefore
  subst hafter hbefore
  -- the second group as it stands behind the first one
  let r : Group := ⟨between, inside', after', hopening', hclosing'⟩
  let front : Text := before ++ '(' :: inside ++ [')']
  have hfront : front.getLast? = some ')' := List.getLast?_concat
  have hsecond : (⟨before ++ '(' :: (inside ++ ')' :: between), inside', after', hopening',
      hclosing'⟩ : Group) = r.prepend front := by
    simp [prepend, r, front]
  let g : Group := ⟨before, inside, between ++ '(' :: (inside' ++ ')' :: after'), hopening, hclosing⟩
  have hvalue {x : Binary64} (hx : g.value = .ok x) : ∃ c,
      ((g.placed x).1 ++ (g.placed x).2.plain).getLast? = some c ∧ endsOperand c = true := by
    obtain ⟨-, c, hc, hnumeral⟩ := plain_ends (isFinite_placed (g := g) (isFinite_of_value hx))
    refine ⟨c, by rw [List.getLast?_append, hc]; rfl, ?_⟩
    rw [isNumeral] at hnumeral
    rw [endsOperand, hnumeral, Bool.true_or]
  rw [hsecond]
  refine ⟨fun y => ⟨before, inside, r.splice y, hopening, hclosing⟩,
    fun x => r.prepend ((g.placed x).1 ++ (g.placed x).2.plain), ?_, ?_, ?_⟩
  · intro y hy
    rw [value_prepend hfront rfl] at hy
    split at hy
    next => cases hy
    next hne =>
      constructor
      · rw [splice_prepend hfront rfl]
        simp [text, front]
      · exact value_congr hopening hclosing (startsOperand_splice hne y _).symm
  · intro x hx
    obtain ⟨c, hc, hoperand⟩ := hvalue hx
    constructor
    · rw [text_prepend]
      simp [splice_eq, text, g, r]
    · rw [value_prepend hc hoperand, value_prepend hfront rfl]
  · intro x y hx
    obtain ⟨c, hc, hoperand⟩ := hvalue hx
    rw [splice_prepend hc hoperand]
    rfl

end Group

/-! ## Sequences of choices -/

namespace Reduction

/-- One choice: the group of an innermost pair of the text is replaced by its value. -/
inductive Step : Text → Text → Prop
  | resolve {t result : Text} {m : Parens} {g : Group} : literal? t = .ok none →
      Parens.scan? t = some m → g.text = t → m.IsInnermost g.pair → g.resolve = .ok result →
        Step t (Text.trim result)

/-- Some sequence of choices ends with the outcome. -/
inductive Ends : Text → Outcome Binary64 → Prop
  /-- The text is a literal without a finite value. -/
  | overflow {t : Text} {e : CalcError} : literal? t = .error e → Ends t (.error e)
  /-- The text is a literal. -/
  | literal {t : Text} {x : Binary64} : literal? t = .ok (some x) → Ends t (.ok x)
  /-- The parentheses of the text do not match. -/
  | unmatched {t : Text} : literal? t = .ok none → Parens.scan? t = none →
      Ends t (.error .mismatchedParentheses)
  /-- The text has no pair to resolve. -/
  | flat {t : Text} {m : Parens} : literal? t = .ok none → Parens.scan? t = some m →
      (∀ p, ¬ m.IsInnermost p) → Ends t (Split.ofText t).eval
  /-- The group of the chosen pair has no value. -/
  | stuck {t : Text} {m : Parens} {g : Group} {e : CalcError} : literal? t = .ok none →
      Parens.scan? t = some m → g.text = t → m.IsInnermost g.pair → g.resolve = .error e →
        Ends t (.error e)
  /-- The sequence goes on behind a choice. -/
  | step {t next : Text} {o : Outcome Binary64} : Step t next → Ends next o → Ends t o

/-- A choice takes an opening parenthesis out of the text, so that no sequence goes on for ever. -/
theorem wellFounded_step : WellFounded fun next t => Step t next := by
  refine Subrelation.wf ?_ (measure fun t : Text => t.count '(').wf
  rintro _ _ ⟨-, -, rfl, -, hresult⟩
  obtain ⟨x, -, rfl⟩ := Group.resolve_eq_ok_iff.1 hresult
  exact Nat.lt_of_le_of_lt (Text.count_trim_le _ _) (Group.count_splice_lt _ x)

theorem literal?_group (g : Group) : literal? g.text = .ok none :=
  literal?_eq_ok_none_iff.2
    (Literal.ofText?_of_mem (c := '(') (by simp [Group.text]) (by decide) (by decide) (by decide))

/-- A text of which every group may be resolved first: its parentheses match, and no blank stands at
its ends. -/
structure IsReady (t : Text) : Prop where
  balanced : Balanced t
  trimmed : Text.IsTrimmed t

namespace IsReady

variable {g : Group} {x : Binary64}

theorem splice (h : IsReady g.text) (hvalue : g.value = .ok x) : IsReady (g.splice x) :=
  ⟨Group.balanced_splice_iff.2 h.balanced, Group.isTrimmed_splice hvalue h.trimmed⟩

theorem step (h : IsReady g.text) (hvalue : g.value = .ok x) : Step g.text (g.splice x) := by
  obtain ⟨m, hm⟩ := Option.isSome_iff_exists.1 (Parens.isSome_scan?_iff.2 h.balanced)
  rw [← Text.trim_of_isTrimmed (h.splice hvalue).trimmed]
  exact .resolve (literal?_group g) hm rfl ((Parens.isInnermost_iff hm).2 ⟨g, rfl, rfl⟩)
    (Group.resolve_eq_ok_iff.2 ⟨x, hvalue, rfl⟩)

end IsReady

namespace Ends

theorem of_other {g r : Group} {y z : Binary64} {o : Outcome Binary64} (hready : IsReady g.text)
    (hy : g.value = .ok y) (htext : r.text = g.splice y) (hz : r.value = .ok z)
    (h : Ends (r.splice z) o) : Ends (g.splice y) o := by
  have hnext := hready.splice hy
  rw [← htext] at hnext ⊢
  exact .step (hnext.step hz) h

/-- **Where some sequence ends with a value, every group can be resolved first.** -/
theorem resolve {t : Text} {x : Binary64} (h : Ends t (.ok x)) (htrim : Text.IsTrimmed t) {g : Group}
    (hg : g.text = t) : ∃ y, g.value = .ok y ∧ Ends (g.splice y) (.ok x) := by
  generalize ho : (Except.ok x : Outcome Binary64) = o at h
  induction h generalizing g with
  | overflow | unmatched | stuck => cases ho
  | literal hliteral =>
    rw [← hg, literal?_group g] at hliteral
    cases hliteral
  | flat _ hm hnone => exact absurd ((Parens.isInnermost_iff hm).2 ⟨g, hg, rfl⟩) (hnone g.pair)
  | step hstep hnext ih =>
    subst hg ho
    cases hstep with
    | @resolve result m g₁ _ hm hg₁ _ hresult =>
      have hready : IsReady g.text :=
        ⟨Parens.isSome_scan?_iff.1 (Option.isSome_iff_exists.2 ⟨m, hm⟩), htrim⟩
      obtain ⟨y₁, hvalue₁, rfl⟩ := Group.resolve_eq_ok_iff.1 hresult
      have htrim₁ := Group.isTrimmed_splice hvalue₁ (by rwa [hg₁])
      rw [Text.trim_of_isTrimmed htrim₁] at hnext ih
      rcases Group.eq_or_precedes hg₁ with rfl | hbefore | hbehind
      · exact ⟨y₁, hvalue₁, hnext⟩
      -- `g` is still there behind or in front of the group that was resolved, and resolved next
      · obtain ⟨first, second, hfirst, hsecond, hsame⟩ := hbefore.exchange
        obtain ⟨htext, hvalue⟩ := hsecond y₁ hvalue₁
        obtain ⟨y, hy, hrest⟩ := ih htrim₁ htext rfl
        rw [hvalue] at hy
        obtain ⟨htext', hvalue'⟩ := hfirst y hy
        rw [← hsame y₁ y hvalue₁] at hrest
        exact ⟨y, hy, of_other hready hy htext' (hvalue'.trans hvalue₁) hrest⟩
      · obtain ⟨first, second, hfirst, hsecond, hsame⟩ := hbehind.exchange
        obtain ⟨htext, hvalue⟩ := hfirst y₁ hvalue₁
        obtain ⟨y, hy, hrest⟩ := ih htrim₁ htext rfl
        rw [hvalue] at hy
        obtain ⟨htext', hvalue'⟩ := hsecond y hy
        rw [hsame y y₁ hy] at hrest
        exact ⟨y, hy, of_other hready hy htext' (hvalue'.trans hvalue₁) hrest⟩

theorem ok_cases {t : Text} {x : Binary64} (h : Ends t (.ok x)) :
    literal? t = .ok (some x) ∨ literal? t = .ok none ∧ ∃ m, Parens.scan? t = some m ∧
      ((∃ p, m.IsInnermost p) ∨ (Split.ofText t).eval = .ok x) := by
  obtain ⟨o, ho, h⟩ : ∃ o, (Except.ok x : Outcome Binary64) = o ∧ Ends t o := ⟨_, rfl, h⟩
  cases h with
  | overflow | unmatched | stuck => cases ho
  | literal hliteral => exact .inl (Except.ok.inj ho ▸ hliteral)
  | flat hliteral hm => exact .inr ⟨hliteral, _, hm, .inr ho.symm⟩
  | step hstep =>
    obtain ⟨hliteral, hm, -, hinner, -⟩ := hstep
    exact .inr ⟨hliteral, _, hm, .inl ⟨_, hinner⟩⟩

theorem eq_ok {t : Text} {x : Binary64} {o : Outcome Binary64} (ho : Ends t o)
    (hx : Ends t (.ok x)) (htrim : Text.IsTrimmed t) : o = .ok x := by
  induction ho with
  | overflow hliteral =>
    rcases hx.ok_cases with hliteral' | ⟨hliteral', -⟩
    · rw [hliteral] at hliteral'
      cases hliteral'
    · rw [hliteral] at hliteral'
      cases hliteral'
  | literal hliteral =>
    rcases hx.ok_cases with hliteral' | ⟨hliteral', -⟩
    · rw [hliteral] at hliteral'
      rw [Option.some.inj (Except.ok.inj hliteral')]
    · rw [hliteral] at hliteral'
      cases hliteral'
  | unmatched hliteral hscan =>
    rcases hx.ok_cases with hliteral' | ⟨-, m, hm, -⟩
    · rw [hliteral] at hliteral'
      cases hliteral'
    · rw [hscan] at hm
      cases hm
  | flat hliteral hm hnone =>
    rcases hx.ok_cases with hliteral' | ⟨-, m, hm', ⟨p, hp⟩ | hvalue⟩
    · rw [hliteral] at hliteral'
      cases hliteral'
    · rw [hm] at hm'
      obtain rfl := Option.some.inj hm'
      exact absurd hp (hnone p)
    · exact hvalue
  | stuck _ _ hg _ herror =>
    obtain ⟨y, hy, -⟩ := hx.resolve htrim hg
    rw [Group.resolve_eq_error_iff.1 herror] at hy
    cases hy
  | step hstep _ ih =>
    obtain ⟨-, -, hg, -, hresult⟩ := hstep
    obtain ⟨y, hy, hnext⟩ := hx.resolve htrim hg
    obtain ⟨y', hy', rfl⟩ := Group.resolve_eq_ok_iff.1 hresult
    obtain rfl := Except.ok.inj (hy.symm.trans hy')
    have htrim' := Group.isTrimmed_splice hy (by rwa [hg])
    rw [Text.trim_of_isTrimmed htrim'] at ih
    exact ih hnext htrim'

theorem ofText (t : Text) : Ends t (Reduction.ofText t).eval := by
  fun_induction Reduction.ofText t with
  | case1 t e hliteral => exact .overflow hliteral
  | case2 t x hliteral => exact .literal hliteral
  | case3 t hliteral hscan => exact .unmatched hliteral (Option.isNone_iff_eq_none.1 hscan)
  | case4 t hliteral hscan hfirst =>
    obtain ⟨m, hm⟩ := Option.ne_none_iff_exists'.1 (by simpa using hscan)
    refine .flat hliteral hm fun p hp => ?_
    obtain ⟨g, rfl, -⟩ := (Parens.isInnermost_iff hm).1 hp
    have hbalanced := Parens.isSome_scan?_iff.1 (Option.isSome_iff_exists.2 ⟨m, hm⟩)
    obtain ⟨g', hg'⟩ := g.exists_first? hbalanced
    rw [hfirst] at hg'
    cases hg'
  | case5 t hliteral hscan g hfirst e hresolve =>
    obtain ⟨m, hm⟩ := Option.ne_none_iff_exists'.1 (by simpa using hscan)
    have htext := Group.text_of_first? hfirst
    exact .stuck hliteral hm htext ((Parens.isInnermost_iff hm).2 ⟨g, htext, rfl⟩) hresolve
  | case6 t hliteral hscan g hfirst result hresolve ih =>
    obtain ⟨m, hm⟩ := Option.ne_none_iff_exists'.1 (by simpa using hscan)
    have htext := Group.text_of_first? hfirst
    have hinner := (Parens.isInnermost_iff hm).2 ⟨g, htext, rfl⟩
    exact .step (.resolve hliteral hm htext hinner hresolve) ih

end Ends

end Reduction

/-- **Groups may be resolved in any order.** If some sequence of choices of innermost pairs ends with a
value, every sequence ends, and with that very value; so does the evaluation, which always resolves the
pair `innermost?` of a scan. -/
theorem reduction_confluent (t : Text) :
    (∀ x o, Reduction.Ends (Text.trim t) (.ok x) → Reduction.Ends (Text.trim t) o → o = .ok x) ∧
      (WellFounded fun next u => Reduction.Step u next) ∧
      (∀ x, Reduction.Ends (Text.trim t) (.ok x) ↔ Mode.legacy.evaluate t = .ok x) ∧
      ∀ u m, Parens.scan? u = some m → m.innermost? = (Group.first? u).map Group.pair := by
  have hsame (x : Binary64) (o : Outcome Binary64) (hx : Reduction.Ends (Text.trim t) (.ok x))
      (ho : Reduction.Ends (Text.trim t) o) : o = .ok x := ho.eq_ok hx (Text.isTrimmed_trim t)
  have hlegacy : Reduction.Ends (Text.trim t) (Mode.legacy.evaluate t) := Reduction.Ends.ofText _
  refine ⟨hsame, Reduction.wellFounded_step, fun x => ⟨fun hx => hsame x _ hx hlegacy, ?_⟩, ?_⟩
  · intro hx
    rwa [hx] at hlegacy
  · intro u m hm
    exact Parens.innermost?_eq hm

end DeskCalculator
