import DeskCalculator.Proofs.Reduction.Context
import DeskCalculator.Proofs.Row.Value

/-!
# Turning a sign in a row

An unsigned literal in the text of a row is the body of an operand, which stands first or behind an
operator (`Row.Lead`, `Row.exists_fill`). When a number below zero is written there instead, its sign
goes into the sign or the operator in front, or stands there as a sign of its own
(`absorbSign_of_isBelowZero`). The row stays well-signed with one exception: a minus sign behind an
operator that adds becomes a plus sign, which may not stand there (`Row.WellSigned.turn`).
-/

namespace DeskCalculator

open Literal (isNumeral)

/-- The other sign. -/
def Sign.turn : Sign → Sign
  | plus => minus
  | minus => plus

/-- A number below zero turns a sign in front of it, or is written with its own one. -/
theorem absorbSign_of_isBelowZero {x : Binary64} (h : x.isBelowZero = true) (l : Text) :
    (∀ s : Sign, l.getLast? ≠ some s.symbol) ∧ Group.absorbSign l x = (l, x) ∨
      ∃ (f : Text) (s : Sign), l = f ++ [s.symbol] ∧
        Group.absorbSign l x = (f ++ [s.turn.symbol], x.neg) := by
  unfold Group.absorbSign
  rw [if_pos h]
  split
  next hlast =>
    obtain ⟨f, rfl⟩ := List.getLast?_eq_some_iff.1 hlast
    exact .inr ⟨f, .minus, rfl, by rw [List.dropLast_concat]; rfl⟩
  next hlast =>
    obtain ⟨f, rfl⟩ := List.getLast?_eq_some_iff.1 hlast
    exact .inr ⟨f, .plus, rfl, by rw [List.dropLast_concat]; rfl⟩
  next hminus hplus =>
    refine .inl ⟨fun s => ?_, rfl⟩
    cases s with
    | plus => exact hplus
    | minus => exact hminus

namespace Row

/-- What leads up to an operand in a row. -/
inductive Lead where
  | start
  | behind (row : Row) (joint : Joint)

namespace Lead

def text : Lead → Text
  | start => []
  | behind c j => c.text ++ j.text

/-- A row with another one behind it. -/
def fill : Lead → Row → Row
  | start, d => d
  | behind c j, d => c.join j d

/-- A row and an operator in front of all. -/
def prepend (c : Row) (j : Joint) : Lead → Lead
  | start => behind c j
  | behind d k => behind (c.join j d) k

/-- The operand may follow with its signs. -/
def Admits : Lead → Operand → Prop
  | start, x => x.signs.length ≤ 1
  | behind _ j, x => j.Admits x

def WellSigned : Lead → Prop
  | start => True
  | behind c _ => c.WellSigned

@[simp] theorem text_fill (p : Lead) (d : Row) : (p.fill d).text = p.text ++ d.text := by
  cases p with
  | start => rfl
  | behind c j => exact text_join c j d

theorem fill_prepend (c : Row) (j : Joint) (p : Lead) (d : Row) :
    (p.prepend c j).fill d = c.join j (p.fill d) := by
  cases p with
  | start => rfl
  | behind b k => exact join_assoc c j b k d

theorem text_prepend (c : Row) (j : Joint) (p : Lead) :
    (p.prepend c j).text = c.text ++ j.text ++ p.text := by
  cases p with
  | start => simp [prepend, text]
  | behind b k => simp [prepend, text]

theorem length_signs_le {p : Lead} {x : Operand} (h : p.Admits x) : x.signs.length ≤ 1 := by
  cases p with
  | start => exact h
  | behind c j => exact (Joint.admits_iff.1 h).1

theorem wellSigned_fill_iff {p : Lead} {x : Operand} {links : List (Joint × Operand)} :
    (p.fill ⟨x, links⟩).WellSigned ↔
      p.WellSigned ∧ p.Admits x ∧ ∀ k ∈ links, k.1.Admits k.2 := by
  cases p with
  | start => exact ⟨fun h => ⟨trivial, h.1, h.2⟩, fun h => ⟨h.2.1, h.2.2⟩⟩
  | behind c j =>
    refine wellSigned_join_iff.trans ?_
    refine and_congr_right fun _ => and_congr_right fun hadmits => ?_
    exact ⟨fun h => h.2, fun h => ⟨(Joint.admits_iff.1 hadmits).1, h⟩⟩

end Lead

/-! ## Finding an operand -/

section

variable {l body r : Text} (hbody : Literal.isUnsigned body = true)
  (hl : ∀ e ∈ l.getLast?, isNumeral e = false) (hr : ∀ e ∈ r.head?, isNumeral e = false)

include hbody

theorem append_eq_of_numeral {m rest l : Text} (hm : ∀ e ∈ m, isNumeral e = false)
    (h : m ++ rest = l ++ (body ++ r)) : ∃ l', l = m ++ l' ∧ rest = l' ++ (body ++ r) := by
  rcases List.append_eq_append_iff.1 h with hpast | ⟨m', hm', hrest⟩
  · exact hpast
  · cases m' with
    | nil =>
      rw [List.append_nil] at hm'
      exact ⟨[], by rw [hm', List.append_nil], hrest.symm⟩
    | cons e m' =>
      obtain ⟨b, body, rfl⟩ := List.exists_cons_of_ne_nil (Literal.ne_nil_of_isUnsigned hbody)
      obtain rfl := (List.cons.inj hrest).1
      have hnumeral := Literal.isNumeral_of_isUnsigned hbody (List.mem_cons_self (a := b))
      rw [hm b (by simp [hm'])] at hnumeral
      cases hnumeral

include hl hr

/-- A numeral is the body of the first operand, or it stands behind that operand. -/
theorem Operand.append_eq_of_numeral {x : Operand} {rest : Text}
    (hrest : ∀ e ∈ rest.head?, isNumeral e = false) (h : x.text ++ rest = l ++ (body ++ r)) :
    (l = x.signs.map Sign.symbol ∧ x.body = body ∧ rest = r) ∨
      ∃ l', l = x.text ++ l' ∧ rest = l' ++ (body ++ r) := by
  have hsigns : ∀ e ∈ x.signs.map Sign.symbol, isNumeral e = false := by
    intro e he
    obtain ⟨s, -, rfl⟩ := List.mem_map.1 he
    exact (isMark_symbol s.operator).1
  rw [text, List.append_assoc] at h
  obtain ⟨l', rfl, hbehind⟩ := Row.append_eq_of_numeral hbody hsigns h
  rcases List.append_eq_append_iff.1 hbehind with ⟨l', rfl, hrest'⟩ | ⟨b, hxbody, hrest'⟩
  · exact .inr ⟨l', by rw [text, List.append_assoc], hrest'⟩
  · -- in front of the numeral there is nothing of the body
    have hnil : l' = [] := by
      rw [← List.getLast?_eq_none_iff, Option.eq_none_iff_forall_ne_some]
      intro e he
      have hnumeral := Literal.isNumeral_of_isUnsigned x.isUnsigned (c := e)
        (by simp [hxbody, List.mem_of_getLast? he])
      rw [hl e (by rw [List.getLast?_append, he]; rfl)] at hnumeral
      cases hnumeral
    subst hnil
    rw [List.nil_append] at hbehind
    obtain ⟨hsame, hr'⟩ := append_inj_of_run
      (fun _ => Literal.isNumeral_of_isUnsigned x.isUnsigned)
      (fun _ => Literal.isNumeral_of_isUnsigned hbody) hrest hr hbehind
    exact .inl ⟨by rw [List.append_nil], hsame, hr'⟩

theorem exists_fill {c : Row} (h : c.text = l ++ (body ++ r)) :
    ∃ (p : Lead) (x : Operand) (links : List (Joint × Operand)), c = p.fill ⟨x, links⟩ ∧
      x.body = body ∧ l = p.text ++ x.signs.map Sign.symbol ∧ r = linksText links := by
  obtain ⟨first, links⟩ := c
  induction links generalizing first l with
  | nil =>
    have hnone : ∀ e ∈ (linksText []).head?, isNumeral e = false := by simp
    rcases Operand.append_eq_of_numeral hbody hl hr hnone h with ⟨hsigns, hsame, hrest⟩ | ⟨l', -, hrest⟩
    · exact ⟨.start, first, [], rfl, hsame, hsigns, hrest.symm⟩
    · exact absurd hrest.symm (by simp [Literal.ne_nil_of_isUnsigned hbody])
  | cons k links ih =>
    obtain ⟨j, x⟩ := k
    rcases Operand.append_eq_of_numeral hbody hl hr (fun _ => not_isNumeral_of_head?_linksText) h with
      ⟨hsigns, hsame, hrest⟩ | ⟨l', rfl, hrest⟩
    · exact ⟨.start, first, _, rfl, hsame, hsigns, hrest.symm⟩
    · rw [linksText_cons] at hrest
      obtain ⟨l', rfl, hbehind⟩ :=
        Row.append_eq_of_numeral hbody (fun _ => Joint.not_isNumeral_of_mem) hrest
      have hl' : ∀ e ∈ l'.getLast?, isNumeral e = false := by
        intro e he
        refine hl e ?_
        rw [List.getLast?_append, List.getLast?_append, Option.mem_def.1 he]
        rfl
      obtain ⟨p, y, rest, hrow, hsame, hfront, htail⟩ := ih hl' x hbehind
      refine ⟨p.prepend ⟨first, []⟩ j, y, rest, ?_, hsame, ?_, htail⟩
      · rw [Lead.fill_prepend, ← hrow]
        rfl
      · rw [Lead.text_prepend, hfront]
        simp [Row.text]

end

/-! ## Turning a sign -/

/-- What is written of a number below zero is a minus sign and its magnitude, unless the sign goes into
the one in front. -/
theorem written_neg {y : Binary64} (hy : y.isFinite = true) (hbelow : y.neg.isBelowZero = true)
    (l r : Text) :
    (∀ s : Sign, l.getLast? ≠ some s.symbol) ∧
        written l y.neg r = l ++ Sign.minus.symbol :: (y.plain ++ r) ∨
      ∃ (f : Text) (s : Sign), l = f ++ [s.symbol] ∧
        written l y.neg r = f ++ s.turn.symbol :: (y.plain ++ r) := by
  unfold written
  rcases absorbSign_of_isBelowZero hbelow l with ⟨hnot, habsorb⟩ | ⟨f, s, hl, habsorb⟩
  · have hplain : y.neg.plain = '-' :: y.plain := by
      rw [plain_of_isBelowZero (by rwa [Binary64.isFinite_neg]) hbelow, Binary64.neg_neg]
    refine .inl ⟨hnot, ?_⟩
    rw [habsorb, hplain]
    rfl
  · refine .inr ⟨f, s, hl, ?_⟩
    rw [habsorb, Binary64.neg_neg]
    simp

theorem Joint.behind_eq_nil {j : Joint} {l : Text}
    (h : ∀ e ∈ (l ++ j.text).getLast?, Text.isBlank e = false) : j.behind = [] := by
  rw [← List.getLast?_eq_none_iff, Option.eq_none_iff_forall_ne_some]
  intro e he
  have hblank := j.isBlanks_behind e (List.mem_of_getLast? he)
  rw [h e (by simp [text, List.getLast?_append, List.getLast?_cons, he])] at hblank
  cases hblank

/-- **A row stays well-signed when a number below zero is written in it**, unless that turns a minus
sign behind an operator that adds. -/
theorem WellSigned.turn {c : Row} (hc : c.WellSigned) {l r : Text} {y : Binary64}
    (hy : y.isFinite = true) (habove : y.isBelowZero = false) (hbelow : y.neg.isBelowZero = true)
    (h : c.text = l ++ (y.plain ++ r))
    (hl : ∀ e ∈ l.getLast?, Text.isBlank e = false ∧ isNumeral e = false)
    (hr : ∀ e ∈ r.head?, isNumeral e = false) :
    (∃ c' : Row, c'.WellSigned ∧ c'.text = written l y.neg r) ∨
      ∃ (d : Row) (j : Joint), j.op = .add ∧ l = d.text ++ j.text ++ [Sign.minus.symbol] := by
  have hbody := isUnsigned_plain hy habove
  obtain ⟨p, x, links, rfl, -, hfront, rfl⟩ := exists_fill hbody (fun e he => (hl e he).2) hr h
  obtain ⟨hp, hadmits, hlinks⟩ := Lead.wellSigned_fill_iff.1 hc
  have hfill (q : Lead) (signs : List Sign) (hq : q.WellSigned) (hsigns : q.Admits ⟨signs, _, hbody⟩) :
      ∃ c' : Row, c'.WellSigned ∧
        c'.text = q.text ++ (signs.map Sign.symbol ++ (y.plain ++ linksText links)) := by
    refine ⟨q.fill ⟨⟨signs, _, hbody⟩, links⟩, Lead.wellSigned_fill_iff.2 ⟨hq, hsigns, hlinks⟩, ?_⟩
    rw [Lead.text_fill, text, Operand.text, List.append_assoc]
  have hwritten := written_neg hy hbelow l (linksText links)
  rcases Sign.eq_nil_or_singleton (Lead.length_signs_le hadmits) with hsigns | ⟨s, hsigns⟩
  · rw [hsigns, List.map_nil, List.append_nil] at hfront
    subst hfront
    cases p with
    | start =>
      rcases hwritten with ⟨-, hw⟩ | ⟨f, s, hf, -⟩
      · rw [hw]
        exact .inl (hfill .start [.minus] trivial (Nat.le_refl 1))
      · exact absurd hf.symm (by simp [Lead.text])
    | behind d j =>
      have hbehind := Joint.behind_eq_nil fun e he => (hl e he).1
      have htext : (Lead.behind d j).text = d.text ++ j.before ++ [j.op.symbol] := by
        simp [Lead.text, Joint.text, hbehind]
      rcases hwritten with ⟨hnot, hw⟩ | ⟨f, s, hf, hw⟩
      · rw [htext, List.getLast?_concat] at hnot
        rw [hw]
        have hop : j.op ≠ .subtract := fun hop => hnot .minus (by rw [hop]; rfl)
        refine .inl (hfill (.behind d j) [.minus] hp (Joint.admits_iff.2 ⟨Nat.le_refl 1, ?_⟩))
        intro s hs
        obtain rfl := List.mem_singleton.1 hs
        revert hop
        cases j.op <;> decide
      · rw [htext] at hf
        obtain ⟨rfl, hsymbol⟩ := List.append_inj' hf rfl
        -- the sign is the operator in front, which is turned
        obtain ⟨c', hc', htext'⟩ := hfill (.behind d { j with op := s.turn.operator }) [] hp
          (Joint.admits_iff.2 (by simp))
        refine .inl ⟨c', hc', ?_⟩
        rw [htext', hw]
        simp [Lead.text, Joint.text, hbehind, Sign.symbol]
  · rw [hsigns] at hfront
    rcases hwritten with ⟨hnot, -⟩ | ⟨f, s', hf, hw⟩
    · exact absurd (by rw [hfront]; simp) (hnot s)
    · rw [hfront] at hf
      obtain ⟨rfl, hsymbol⟩ := List.append_inj' hf rfl
      have hsame : [s] = [s'] := Sign.map_symbol_injective hsymbol
      obtain rfl := (List.cons.inj hsame).1
      by_cases hturn : p.Admits ⟨[s.turn], _, hbody⟩
      · rw [hw]
        exact .inl (hfill p [s.turn] hp hturn)
      · cases p with
        | start => exact absurd (Nat.le_refl 1) hturn
        | behind d j =>
          have hlt := (Joint.admits_iff.1 hadmits).2 s (by simp [hsigns])
          have hnot : ¬ j.op.tier < s.turn.operator.tier :=
            fun hlt => hturn (Joint.admits_iff.2 ⟨Nat.le_refl 1, by simpa using hlt⟩)
          have hcase : j.op = .add ∧ s = .minus := by
            revert hlt hnot
            cases j.op <;> cases s <;> decide
          obtain ⟨hop, rfl⟩ := hcase
          exact .inr ⟨d, j, hop, hfront⟩

end Row

end DeskCalculator
