import DeskCalculator.Proofs.Parens.Balance
import Mathlib.Logic.ExistsUnique

/-!
# Matching parentheses

Two parentheses of a text match if the text between them is balanced (`Matching`). Two pairs of
matching parentheses are nested or apart (`Matching.lt_or_lt`), so a parenthesis has one partner.

The pairs of a scan are the matching ones (`Parens.mem_pairs_iff`). The scan of the rest of a text
closes parentheses that are open before it, so the induction is about `IsPairFrom`: a pair of the
rest matches in it, or its opening one is in the stack, and the text up to the closing one
closes all that was opened later.
-/

namespace DeskCalculator

/-! ## Pairs of a text -/

/-- A pair of parentheses with a balanced text between them, in its text. -/
structure Matching where
  before : Text
  inside : Text
  after : Text
  balanced : Balanced inside

namespace Matching

/-- The whole text that the parentheses stand in. -/
def text (x : Matching) : Text := x.before ++ '(' :: (x.inside ++ ')' :: x.after)

/-- The offsets of the parentheses. -/
def pair (x : Matching) : Nat × Nat :=
  (Text.byteLength x.before, Text.byteLength x.before + 1 + Text.byteLength x.inside)

variable {x y : Matching}

/-- Behind an opening parenthesis a balanced text closes more than it opens. -/
theorem count_lt_of_balanced {u v : Text} (h : Balanced (u ++ '(' :: v)) :
    v.count '(' < v.count ')' := by
  have hfront := h.1 u (List.prefix_append _ _)
  have htotal := h.2
  rw [List.count_append, List.count_append, List.count_cons_self,
    List.count_cons_of_ne (by decide)] at htotal
  omega

theorem not_prefix_of_balanced {u t : Text} (hu : u.count '(' < u.count ')') (h : Balanced t) :
    ¬ u <+: t := by
  intro hfront
  have hle := h.1 u hfront
  omega

/-- The text between an opening parenthesis and its partner is settled by what follows the opening
one. -/
theorem inside_eq {u v r s : Text} (hu : Balanced u) (hv : Balanced v)
    (h : u ++ ')' :: r = v ++ ')' :: s) : u = v := by
  have hlonger {u v : Text} (hu : Balanced u) (hv : Balanced v) : ¬ u ++ [')'] <+: v := by
    refine not_prefix_of_balanced ?_ hv
    have htotal := hu.2
    rw [List.count_append, List.count_append]
    simp
    omega
  rcases List.append_eq_append_iff.1 h with ⟨m, rfl, hm⟩ | ⟨m, rfl, hm⟩
  · cases m with
    | nil => simp
    | cons c m =>
      obtain ⟨rfl, -⟩ := List.cons.inj hm
      exact absurd (List.prefix_iff_eq_append.2 (by simp)) (hlonger hu hv)
  · cases m with
    | nil => simp
    | cons c m =>
      obtain ⟨rfl, -⟩ := List.cons.inj hm
      exact absurd (List.prefix_iff_eq_append.2 (by simp)) (hlonger hv hu)

theorem eq_of_before_eq (h : x.text = y.text) (hbefore : x.before = y.before) : x = y := by
  obtain ⟨before, inside, after, hx⟩ := x
  obtain ⟨before', inside', after', hy⟩ := y
  obtain rfl : before = before' := hbefore
  have hrest := (List.cons.inj (List.append_cancel_left h)).2
  obtain rfl := inside_eq hx hy hrest
  obtain rfl := (List.cons.inj (List.append_cancel_left hrest)).2
  rfl

theorem before_eq_of_lt (h : x.text = y.text) (hlt : x.pair.1 < y.pair.1) :
    ∃ u, y.before = x.before ++ '(' :: u ∧
      x.inside ++ ')' :: x.after = u ++ '(' :: (y.inside ++ ')' :: y.after) := by
  rcases List.append_eq_append_iff.1 h with ⟨m, hbefore, hm⟩ | ⟨m, hbefore, hm⟩
  · cases m with
    | nil => simp [pair, hbefore] at hlt
    | cons c m =>
      obtain ⟨rfl, hrest⟩ := List.cons.inj hm
      exact ⟨m, hbefore, hrest⟩
  · rw [pair, pair, hbefore, Text.byteLength_append] at hlt
    omega

theorem opening_mem_inside (h : x.text = y.text) (hlt : x.pair.1 < y.pair.1)
    (hgt : y.pair.1 < x.pair.2) : '(' ∈ x.inside := by
  obtain ⟨u, hbefore, hu⟩ := before_eq_of_lt h hlt
  rcases List.append_eq_append_iff.1 hu with ⟨m, rfl, -⟩ | ⟨v, hinside, hv⟩
  · rw [pair, pair, hbefore] at hgt
    simp only [Text.byteLength_append, Text.byteLength_cons, show '('.utf8Size = 1 from rfl] at hgt
    omega
  · cases v with
    | nil => cases (List.cons.inj hv).1
    | cons c v =>
      obtain ⟨rfl, -⟩ := List.cons.inj hv
      rw [hinside]
      simp

/-- **A pair that opens later is behind the whole first one or inside it.** -/
theorem lt_or_lt (h : x.text = y.text) (hlt : x.pair.1 < y.pair.1) :
    x.pair.2 < y.pair.1 ∨ y.pair.2 < x.pair.2 := by
  obtain ⟨u, hbefore, hu⟩ := before_eq_of_lt h hlt
  have hone : '('.utf8Size = 1 := rfl
  rw [pair, pair, hbefore]
  rcases List.append_eq_append_iff.1 hu with ⟨m, rfl, hm⟩ | ⟨v, hinside, hv⟩
  · cases m with
    | nil => cases (List.cons.inj hm).1
    | cons c m =>
      have hpos := c.utf8Size_pos
      simp only [Text.byteLength_append, Text.byteLength_cons, hone]
      omega
  · cases v with
    | nil => cases (List.cons.inj hv).1
    | cons c v =>
      obtain ⟨rfl, hrest⟩ := List.cons.inj hv
      -- the rest of the outer text closes more than it opens, so the inner pair ends in it
      have hcount := count_lt_of_balanced (hinside ▸ x.balanced)
      rcases List.append_eq_append_iff.1 hrest with ⟨m, hm, htail⟩ | ⟨m, hm, -⟩
      · cases m with
        | nil =>
          rw [List.append_nil] at hm
          exact absurd (hm ▸ List.prefix_refl _) (not_prefix_of_balanced hcount y.balanced)
        | cons c m =>
          obtain ⟨rfl, -⟩ := List.cons.inj htail
          rw [hinside, hm]
          simp only [Text.byteLength_append, Text.byteLength_cons, hone]
          have hpos := ')'.utf8Size_pos
          exact .inr (by omega)
      · exact absurd (hm ▸ List.prefix_append v m) (not_prefix_of_balanced hcount y.balanced)

theorem fst_lt_snd (x : Matching) : x.pair.1 < x.pair.2 := by
  simp only [pair]
  omega

theorem eq_of_fst_eq (h : x.text = y.text) (heq : x.pair.1 = y.pair.1) : x = y :=
  eq_of_before_eq h (Text.append_inj_of_byteLength_eq h heq).1

theorem eq_of_snd_eq (h : x.text = y.text) (heq : x.pair.2 = y.pair.2) : x = y := by
  have hx := x.fst_lt_snd
  have hy := y.fst_lt_snd
  rcases Nat.lt_trichotomy x.pair.1 y.pair.1 with hlt | hfst | hlt
  · have hcases := lt_or_lt h hlt
    omega
  · exact eq_of_fst_eq h hfst
  · have hcases := lt_or_lt h.symm hlt
    omega

/-! ## The characters at the offsets -/

theorem opening_of_fst_eq {l r : Text} {c : Char} (h : x.text = l ++ c :: r)
    (heq : x.pair.1 = Text.byteLength l) : c = '(' := by
  obtain ⟨-, hrest⟩ := Text.append_inj_of_byteLength_eq h heq
  exact (List.cons.inj hrest).1.symm

theorem closing_of_snd_eq {l r : Text} {c : Char} (h : x.text = l ++ c :: r)
    (heq : x.pair.2 = Text.byteLength l) : c = ')' := by
  have htext : (x.before ++ '(' :: x.inside) ++ ')' :: x.after = l ++ c :: r := by
    rw [← h]
    simp [text]
  have hlength : Text.byteLength (x.before ++ '(' :: x.inside) = Text.byteLength l := by
    rw [← heq, Text.byteLength_append, Text.byteLength_cons, ← Nat.add_assoc]
    rfl
  obtain ⟨-, hrest⟩ := Text.append_inj_of_byteLength_eq htext hlength
  exact (List.cons.inj hrest).1.symm

theorem eq_of_shared {l r : Text} {c : Char} (hx : x.text = l ++ c :: r) (hy : y.text = l ++ c :: r)
    (hshared : x.pair.1 = Text.byteLength l ∨ x.pair.2 = Text.byteLength l)
    (hshared' : y.pair.1 = Text.byteLength l ∨ y.pair.2 = Text.byteLength l) : x = y := by
  have h := hx.trans hy.symm
  rcases hshared with hshared | hshared <;> rcases hshared' with hshared' | hshared'
  · exact eq_of_fst_eq h (hshared.trans hshared'.symm)
  · have hne := (opening_of_fst_eq hx hshared).symm.trans (closing_of_snd_eq hy hshared')
    cases hne
  · have hne := (closing_of_snd_eq hx hshared).symm.trans (opening_of_fst_eq hy hshared')
    cases hne
  · exact eq_of_snd_eq h (hshared.trans hshared'.symm)

/-! ## One character more -/

/-- The pair in a text with one character more in front. -/
def cons (c : Char) (x : Matching) : Matching := { x with before := c :: x.before }

theorem pair_cons (c : Char) (x : Matching) :
    (x.cons c).pair = (c.utf8Size + x.pair.1, c.utf8Size + x.pair.2) := by
  simp [pair, cons, Nat.add_assoc]

theorem text_eq_cons {c : Char} {t : Text} (h : x.text = c :: t) :
    (c = '(' ∧ x.before = [] ∧ t = x.inside ++ ')' :: x.after) ∨
      ∃ y : Matching, x = y.cons c ∧ y.text = t := by
  obtain ⟨before, inside, after, hbalanced⟩ := x
  cases before with
  | nil =>
    obtain ⟨rfl, rfl⟩ := List.cons.inj h
    exact .inl ⟨rfl, rfl, rfl⟩
  | cons d before =>
    obtain ⟨rfl, rfl⟩ := List.cons.inj h
    exact .inr ⟨⟨before, inside, after, hbalanced⟩, rfl, rfl⟩

end Matching

/-! ## The pairs of a scan -/

namespace Parens

variable {opened : List Nat} {offset : Nat} {t : Text} {m : Parens} {p : Nat × Nat}

theorem scanFrom_cons_eq_some {c : Char} (h : scanFrom opened offset (c :: t) = some m) :
    (c = '(' ∧ ∃ later, scanFrom (offset :: opened) (offset + c.utf8Size) t = some later ∧
        m.pairs = later.pairs) ∨
      (c = ')' ∧ ∃ start rest later, opened = start :: rest ∧
        scanFrom rest (offset + c.utf8Size) t = some later ∧
          m.pairs = (start, offset) :: later.pairs) ∨
      isParen c = false ∧ scanFrom opened (offset + c.utf8Size) t = some m := by
  by_cases hc : isParen c = true
  · simp only [isParen, Bool.or_eq_true, beq_iff_eq] at hc
    rcases hc with rfl | rfl
    · rw [scanFrom_opening] at h
      obtain ⟨later, hlater, rfl⟩ := Option.map_eq_some_iff.1 h
      exact .inl ⟨rfl, later, hlater, rfl⟩
    · cases opened with
      | nil =>
        rw [scanFrom_closing_nil] at h
        cases h
      | cons start rest =>
        rw [scanFrom_closing_cons] at h
        obtain ⟨later, hlater, rfl⟩ := Option.map_eq_some_iff.1 h
        exact .inr (.inl ⟨rfl, start, rest, later, rfl, hlater, rfl⟩)
  · have hother : isParen c = false := by simpa using hc
    rw [scanFrom_of_not_isParen hother] at h
    exact .inr (.inr ⟨hother, h⟩)

theorem pairs_of_scanFrom_nil (h : scanFrom opened offset [] = some m) : m.pairs = [] := by
  rw [scanFrom] at h
  split at h
  next =>
    obtain rfl := Option.some.inj h
    rfl
  next => cases h

/-- What the pairs of a scan from `offset` are, where parentheses are open before it. -/
def IsPairFrom (opened : List Nat) (offset : Nat) (t : Text) (p : Nat × Nat) : Prop :=
  (∃ x : Matching, x.text = t ∧ p = (offset + x.pair.1, offset + x.pair.2)) ∨
    ∃ i u v, t = u ++ ')' :: v ∧ Closes i u ∧ opened[i]? = some p.1 ∧
      p.2 = offset + Text.byteLength u

theorem not_isPairFrom_nil : ¬ IsPairFrom opened offset [] p := by
  rintro (⟨x, hx, -⟩ | ⟨i, u, v, huv, -⟩)
  · simp [Matching.text] at hx
  · simp at huv

theorem isPairFrom_opening :
    IsPairFrom opened offset ('(' :: t) p ↔
      IsPairFrom (offset :: opened) (offset + '('.utf8Size) t p := by
  constructor
  · rintro (⟨x, hx, rfl⟩ | ⟨i, u, v, huv, hu, hopened, hclosed⟩)
    · rcases Matching.text_eq_cons hx with ⟨-, hbefore, rfl⟩ | ⟨y, rfl, rfl⟩
      · refine .inr ⟨0, _, _, rfl, x.balanced, ?_, ?_⟩
        · simp [Matching.pair, hbefore]
        · simp [Matching.pair, hbefore, Nat.add_assoc]
          rfl
      · exact .inl ⟨y, rfl, by simp [Matching.pair_cons, Nat.add_assoc]⟩
    · cases u with
      | nil => cases (List.cons.inj huv).1
      | cons c u =>
        obtain ⟨rfl, rfl⟩ := List.cons.inj huv
        refine .inr ⟨i + 1, u, v, rfl, closes_opening_cons_iff.1 hu, hopened, ?_⟩
        rw [hclosed, Text.byteLength_cons, Nat.add_assoc]
  · rintro (⟨x, rfl, rfl⟩ | ⟨i, u, v, rfl, hu, hopened, hclosed⟩)
    · exact .inl ⟨x.cons '(', rfl, by simp [Matching.pair_cons, Nat.add_assoc]⟩
    · cases i with
      | zero =>
        refine .inl ⟨⟨[], u, v, hu⟩, rfl, Prod.ext ?_ ?_⟩
        · exact (Option.some.inj hopened).symm
        · rw [hclosed, Nat.add_assoc]
          simp [Matching.pair]
          rfl
      | succ i =>
        refine .inr ⟨i, '(' :: u, v, rfl, closes_opening_cons_iff.2 hu, hopened, ?_⟩
        rw [hclosed, Text.byteLength_cons, Nat.add_assoc]

theorem isPairFrom_closing {start : Nat} :
    IsPairFrom (start :: opened) offset (')' :: t) p ↔
      p = (start, offset) ∨ IsPairFrom opened (offset + ')'.utf8Size) t p := by
  constructor
  · rintro (⟨x, hx, rfl⟩ | ⟨i, u, v, huv, hu, hopened, hclosed⟩)
    · rcases Matching.text_eq_cons hx with ⟨hc, -⟩ | ⟨y, rfl, rfl⟩
      · cases hc
      · exact .inr (.inl ⟨y, rfl, by simp [Matching.pair_cons, Nat.add_assoc]⟩)
    · cases u with
      | nil =>
        obtain rfl := closes_nil_iff.1 hu
        exact .inl (Prod.ext (Option.some.inj hopened).symm hclosed)
      | cons c u =>
        obtain ⟨rfl, rfl⟩ := List.cons.inj huv
        obtain ⟨j, rfl, hrest⟩ := closes_closing_cons_iff.1 hu
        refine .inr (.inr ⟨j, u, v, rfl, hrest, hopened, ?_⟩)
        rw [hclosed, Text.byteLength_cons, Nat.add_assoc]
  · rintro (rfl | ⟨x, rfl, rfl⟩ | ⟨i, u, v, rfl, hu, hopened, hclosed⟩)
    · exact .inr ⟨0, [], t, rfl, closes_nil_iff.2 rfl, rfl, rfl⟩
    · exact .inl ⟨x.cons ')', rfl, by simp [Matching.pair_cons, Nat.add_assoc]⟩
    · refine .inr ⟨i + 1, ')' :: u, v, rfl, closes_closing_cons_iff.2 ⟨i, rfl, hu⟩, hopened, ?_⟩
      rw [hclosed, Text.byteLength_cons, Nat.add_assoc]

theorem isPairFrom_cons_of_not_isParen {c : Char} (hc : isParen c = false) :
    IsPairFrom opened offset (c :: t) p ↔ IsPairFrom opened (offset + c.utf8Size) t p := by
  have hne := hc
  simp only [isParen, Bool.or_eq_false_iff, beq_eq_false_iff_ne] at hne
  constructor
  · rintro (⟨x, hx, rfl⟩ | ⟨i, u, v, huv, hu, hopened, hclosed⟩)
    · rcases Matching.text_eq_cons hx with ⟨rfl, -⟩ | ⟨y, rfl, rfl⟩
      · exact absurd rfl hne.1
      · exact .inl ⟨y, rfl, by simp [Matching.pair_cons, Nat.add_assoc]⟩
    · cases u with
      | nil => exact absurd (List.cons.inj huv).1 hne.2
      | cons d u =>
        obtain ⟨rfl, rfl⟩ := List.cons.inj huv
        refine .inr ⟨i, u, v, rfl, (closes_cons_of_not_isParen hc).1 hu, hopened, ?_⟩
        rw [hclosed, Text.byteLength_cons, Nat.add_assoc]
  · rintro (⟨x, rfl, rfl⟩ | ⟨i, u, v, rfl, hu, hopened, hclosed⟩)
    · exact .inl ⟨x.cons c, rfl, by simp [Matching.pair_cons, Nat.add_assoc]⟩
    · refine .inr ⟨i, c :: u, v, rfl, (closes_cons_of_not_isParen hc).2 hu, hopened, ?_⟩
      rw [hclosed, Text.byteLength_cons, Nat.add_assoc]

theorem mem_scanFrom_iff (h : scanFrom opened offset t = some m) :
    p ∈ m.pairs ↔ IsPairFrom opened offset t p := by
  induction t generalizing opened offset m with
  | nil =>
    rw [pairs_of_scanFrom_nil h]
    exact iff_of_false List.not_mem_nil not_isPairFrom_nil
  | cons c t ih =>
    rcases scanFrom_cons_eq_some h with ⟨rfl, later, hlater, hpairs⟩ |
      ⟨rfl, start, rest, later, rfl, hlater, hpairs⟩ | ⟨hc, hlater⟩
    · rw [isPairFrom_opening, hpairs, ih hlater]
    · rw [isPairFrom_closing, hpairs, List.mem_cons, ih hlater]
    · rw [isPairFrom_cons_of_not_isParen hc, ih hlater]

/-! ### Their order -/

theorem offset_le_of_mem (h : scanFrom opened offset t = some m) (hp : p ∈ m.pairs) :
    offset ≤ p.2 := by
  rcases (mem_scanFrom_iff h).1 hp with ⟨x, -, rfl⟩ | ⟨i, u, v, -, -, -, hclosed⟩
  · exact Nat.le_add_right _ _
  · omega

/-- A scan meets the pairs by their closing. -/
theorem pairwise_scanFrom (h : scanFrom opened offset t = some m) :
    m.pairs.Pairwise fun p q => p.2 < q.2 := by
  induction t generalizing opened offset m with
  | nil =>
    rw [pairs_of_scanFrom_nil h]
    exact .nil
  | cons c t ih =>
    rcases scanFrom_cons_eq_some h with ⟨-, later, hlater, hpairs⟩ |
      ⟨-, start, rest, later, -, hlater, hpairs⟩ | ⟨-, hlater⟩
    · rw [hpairs]
      exact ih hlater
    · rw [hpairs]
      refine List.pairwise_cons.2 ⟨fun q hq => ?_, ih hlater⟩
      exact Nat.lt_of_lt_of_le (Nat.lt_add_of_pos_right c.utf8Size_pos) (offset_le_of_mem hlater hq)
    · exact ih hlater

/-! ### Every parenthesis has a pair -/

theorem exists_mem_of_opened (h : scanFrom opened offset t = some m) {start : Nat}
    (hstart : start ∈ opened) : ∃ p ∈ m.pairs, p.1 = start := by
  induction t generalizing opened offset m with
  | nil =>
    rw [scanFrom] at h
    split at h
    next hnil =>
      rw [hnil] at hstart
      cases hstart
    next => cases h
  | cons c t ih =>
    rcases scanFrom_cons_eq_some h with ⟨-, later, hlater, hpairs⟩ |
      ⟨-, start', rest, later, rfl, hlater, hpairs⟩ | ⟨-, hlater⟩
    · rw [hpairs]
      exact ih hlater (List.mem_cons_of_mem _ hstart)
    · rw [hpairs]
      rcases List.mem_cons.1 hstart with rfl | hstart
      · exact ⟨_, List.mem_cons_self, rfl⟩
      · obtain ⟨p, hp, hfst⟩ := ih hlater hstart
        exact ⟨p, List.mem_cons_of_mem _ hp, hfst⟩
    · exact ih hlater hstart

theorem exists_mem_of_isParen {l r : Text} {c : Char} (hc : isParen c = true)
    (h : scanFrom opened offset (l ++ c :: r) = some m) :
    ∃ p ∈ m.pairs, p.1 = offset + Text.byteLength l ∨ p.2 = offset + Text.byteLength l := by
  induction l generalizing opened offset m with
  | nil =>
    rcases scanFrom_cons_eq_some h with ⟨-, later, hlater, hpairs⟩ |
      ⟨-, start, rest, later, -, -, hpairs⟩ | ⟨hother, -⟩
    · rw [hpairs]
      obtain ⟨p, hp, hfst⟩ := exists_mem_of_opened hlater List.mem_cons_self
      exact ⟨p, hp, .inl hfst⟩
    · rw [hpairs]
      exact ⟨_, List.mem_cons_self, .inr rfl⟩
    · rw [hother] at hc
      cases hc
  | cons d l ih =>
    rw [Text.byteLength_cons, ← Nat.add_assoc]
    rcases scanFrom_cons_eq_some h with ⟨-, later, hlater, hpairs⟩ |
      ⟨-, start, rest, later, -, hlater, hpairs⟩ | ⟨-, hlater⟩
    · rw [hpairs]
      exact ih hlater
    · rw [hpairs]
      obtain ⟨p, hp, hends⟩ := ih hlater
      exact ⟨p, List.mem_cons_of_mem _ hp, hends⟩
    · exact ih hlater

/-! ### The pairs of a whole text -/

theorem scan?_eq_some (h : scan? t = some m) :
    ∃ found, scanFrom [] 0 t = some found ∧ m.pairs.Perm found.pairs ∧
      m.pairs.Pairwise fun p q => p.1 ≤ q.1 := by
  obtain ⟨found, hfound, hm⟩ := Option.bind_eq_some_iff.1 h
  obtain rfl := Option.some.inj hm
  refine ⟨found, hfound, List.mergeSort_perm _ _, ?_⟩
  have hsorted : (found.pairs.mergeSort fun p q => decide (p.1 ≤ q.1)).Pairwise
      fun p q => decide (p.1 ≤ q.1) = true := by
    refine List.pairwise_mergeSort ?_ ?_ _
    · intro a b c hab hbc
      exact decide_eq_true (Nat.le_trans (of_decide_eq_true hab) (of_decide_eq_true hbc))
    · intro a b
      rw [Bool.or_eq_true, decide_eq_true_eq, decide_eq_true_eq]
      exact Nat.le_total _ _
  exact hsorted.imp fun h => of_decide_eq_true h

/-- **The pairs of a scan are the matching parentheses of the text.** -/
theorem mem_pairs_iff (h : scan? t = some m) :
    p ∈ m.pairs ↔ ∃ x : Matching, x.text = t ∧ x.pair = p := by
  obtain ⟨found, hfound, hperm, -⟩ := scan?_eq_some h
  rw [hperm.mem_iff, mem_scanFrom_iff hfound]
  constructor
  · rintro (⟨x, hx, rfl⟩ | ⟨i, u, v, -, -, hopened, -⟩)
    · exact ⟨x, hx, by simp⟩
    · cases hopened
  · rintro ⟨x, hx, rfl⟩
    exact .inl ⟨x, hx, by simp⟩

theorem pairs_pairwise_lt (h : scan? t = some m) : m.pairs.Pairwise fun p q => p.1 < q.1 := by
  obtain ⟨found, hfound, hperm, hsorted⟩ := scan?_eq_some h
  have hnodup : m.pairs.Nodup := by
    refine hperm.nodup_iff.2 ((pairwise_scanFrom hfound).imp fun {p q} hlt => ?_)
    rintro rfl
    exact Nat.lt_irrefl _ hlt
  refine (hsorted.and hnodup).imp_of_mem fun {p q} hp hq hle => ?_
  obtain ⟨x, hx, rfl⟩ := (mem_pairs_iff h).1 hp
  obtain ⟨y, hy, rfl⟩ := (mem_pairs_iff h).1 hq
  refine Nat.lt_of_le_of_ne hle.1 fun heq => hle.2 ?_
  rw [Matching.eq_of_fst_eq (hx.trans hy.symm) heq]

theorem pairs_nested_or_apart (h : scan? t = some m) {q : Nat × Nat} (hp : p ∈ m.pairs)
    (hq : q ∈ m.pairs) :
    p = q ∨ inside p q = true ∨ inside q p = true ∨ p.2 < q.1 ∨ q.2 < p.1 := by
  obtain ⟨x, hx, rfl⟩ := (mem_pairs_iff h).1 hp
  obtain ⟨y, hy, rfl⟩ := (mem_pairs_iff h).1 hq
  simp only [inside, Bool.and_eq_true, decide_eq_true_eq]
  rcases Nat.lt_trichotomy x.pair.1 y.pair.1 with hlt | heq | hlt
  · have hcases := Matching.lt_or_lt (hx.trans hy.symm) hlt
    omega
  · exact .inl (by rw [Matching.eq_of_fst_eq (hx.trans hy.symm) heq])
  · have hcases := Matching.lt_or_lt (hy.trans hx.symm) hlt
    omega

theorem existsUnique_pair (h : scan? t = some m) {l r : Text} {c : Char} (ht : t = l ++ c :: r)
    (hc : isParen c = true) :
    ∃! p, p ∈ m.pairs ∧ (p.1 = Text.byteLength l ∨ p.2 = Text.byteLength l) := by
  obtain ⟨found, hfound, hperm, -⟩ := scan?_eq_some h
  rw [ht] at hfound
  obtain ⟨p, hp, hends⟩ := exists_mem_of_isParen hc hfound
  rw [Nat.zero_add] at hends
  refine ⟨p, ⟨hperm.mem_iff.2 hp, hends⟩, ?_⟩
  rintro q ⟨hq, hends'⟩
  obtain ⟨x, hx, rfl⟩ := (mem_pairs_iff h).1 (hperm.mem_iff.2 hp)
  obtain ⟨y, hy, rfl⟩ := (mem_pairs_iff h).1 hq
  rw [Matching.eq_of_shared (hy.trans ht) (hx.trans ht) hends' hends]

end Parens

end DeskCalculator
