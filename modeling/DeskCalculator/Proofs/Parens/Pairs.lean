import DeskCalculator.Parens.Group
import DeskCalculator.Proofs.Parens.Matching

/-!
# Innermost pairs

The pairs of a scan with no other pair inside are the groups of the text, each by the offsets of its
parentheses (`Parens.isInnermost_iff`), and the first of them is the group that closes first
(`Parens.innermost?_eq`, `Parens.innermost?_eq_some_iff_closing`). With the matching parentheses this
says what a scan of any text gives (`Parens.scan?_exact`).
-/

namespace DeskCalculator

namespace Group

/-- The offsets of the parentheses. -/
def pair (g : Group) : Nat × Nat :=
  (Text.byteLength g.before, Text.byteLength g.before + 1 + Text.byteLength g.inside)

/-- The parentheses of a group match. -/
def matching (g : Group) : Matching where
  before := g.before
  inside := g.inside
  after := g.after
  balanced := (neutral_of_not_mem g.opening_not_mem g.closing_not_mem).balanced

/-- The second group stands behind the first one in the same text. -/
def Precedes (g g' : Group) : Prop :=
  ∃ between, g.after = between ++ '(' :: (g'.inside ++ ')' :: g'.after) ∧
    g'.before = g.before ++ '(' :: (g.inside ++ ')' :: between)

theorem append_cons_inj {c : Char} {l l' r r' : Text} (hl : c ∉ l) (hl' : c ∉ l')
    (h : l ++ c :: r = l' ++ c :: r') : l = l' ∧ r = r' := by
  induction l generalizing l' with
  | nil =>
    cases l' with
    | nil => exact ⟨rfl, (List.cons.inj h).2⟩
    | cons d l' =>
      obtain rfl : c = d := (List.cons.inj h).1
      simp at hl'
  | cons d l ih =>
    cases l' with
    | nil =>
      obtain rfl : d = c := (List.cons.inj h).1
      simp at hl
    | cons d' l' =>
      obtain ⟨rfl, htail⟩ := List.cons.inj h
      simp only [List.mem_cons, not_or] at hl hl'
      obtain ⟨rfl, rfl⟩ := ih hl.2 hl'.2 htail
      exact ⟨rfl, rfl⟩

/-- An opening parenthesis behind that of a group stands behind the whole group. -/
theorem precedes_of_before_eq {g g' : Group} {l : Text} (h : g.text = g'.text) (hl : l ≠ [])
    (hbefore : g'.before = g.before ++ l) : g.Precedes g' := by
  obtain ⟨c, l, rfl⟩ := List.exists_cons_of_ne_nil hl
  rw [text, text, hbefore, List.append_assoc, List.append_cancel_left_eq, List.cons_append] at h
  obtain ⟨rfl, htail⟩ := List.cons.inj h
  rcases List.append_eq_append_iff.1 htail with ⟨between, rfl, hrest⟩ | ⟨rest, hinside, hrest⟩
  · cases between with
    | nil =>
      rw [List.nil_append] at hrest
      cases (List.cons.inj hrest).1
    | cons c between =>
      obtain ⟨rfl, hafter⟩ := List.cons.inj hrest
      exact ⟨between, hafter, hbefore⟩
  · cases rest with
    | nil => simp_all
    | cons c rest =>
      obtain ⟨rfl, -⟩ := List.cons.inj hrest
      exact absurd (by rw [hinside]; simp) g.opening_not_mem

theorem eq_or_precedes {g g' : Group} (h : g.text = g'.text) :
    g = g' ∨ g.Precedes g' ∨ g'.Precedes g := by
  rcases List.append_eq_append_iff.1 h with ⟨l, hbefore, hrest⟩ | ⟨l, hbefore, hrest⟩
  · cases l with
    | nil =>
      rw [List.append_nil] at hbefore
      rw [List.nil_append] at hrest
      obtain ⟨hinside, hafter⟩ :=
        append_cons_inj g.closing_not_mem g'.closing_not_mem (List.cons.inj hrest).2
      cases g
      cases g'
      simp_all
    | cons c l => exact .inr (.inl (precedes_of_before_eq h (List.cons_ne_nil c l) hbefore))
  · cases l with
    | nil =>
      rw [List.append_nil] at hbefore
      rw [List.nil_append] at hrest
      obtain ⟨hinside, hafter⟩ :=
        append_cons_inj g'.closing_not_mem g.closing_not_mem (List.cons.inj hrest).2
      cases g
      cases g'
      simp_all
    | cons c l => exact .inr (.inr (precedes_of_before_eq h.symm (List.cons_ne_nil c l) hbefore))

theorem Precedes.closing_mem {g g' : Group} (h : g.Precedes g') : ')' ∈ g'.before := by
  obtain ⟨between, -, hbefore⟩ := h
  simp [hbefore]

theorem Precedes.pair_lt {g g' : Group} (h : g.Precedes g') : g.pair.1 < g'.pair.1 := by
  obtain ⟨between, -, hbefore⟩ := h
  have hpos := '('.utf8Size_pos
  simp only [pair, hbefore, Text.byteLength_append, Text.byteLength_cons]
  omega

/-! ## The group that closes first -/

theorem closing_not_mem_of_first? {t : Text} {g : Group} (h : first? t = some g) :
    ')' ∉ g.before := by
  unfold first? at h
  split at h
  next => cases h
  next =>
    split at h
    next => cases h
    next before inside hsplit =>
      obtain rfl := Option.some.inj h
      intro hmem
      have hfront : ')' ∈ t.takeWhile (· != ')') := by
        rw [Text.eq_append_of_splitLast? hsplit]
        exact List.mem_append_left _ hmem
      simpa using List.all_eq_true.1 List.all_takeWhile _ hfront

theorem exists_first?_of_mem {t : Text} (h : Balanced t) (hmem : ')' ∈ t) :
    ∃ g, first? t = some g := by
  have hsum := List.takeWhile_append_dropWhile (p := (· != ')')) (l := t)
  unfold first?
  split
  next hnil =>
    rw [hnil, List.append_nil] at hsum
    rw [← hsum] at hmem
    have hne := List.all_eq_true.1 List.all_takeWhile _ hmem
    simp at hne
  next c after hdrop =>
    have hc : c = ')' := by
      have hhead := List.head?_dropWhile_not (· != ')') t
      rw [hdrop] at hhead
      simpa using hhead
    subst hc
    split
    next hnone =>
      -- the parenthesis that closes first would close nothing
      have hopening := Text.splitLast?_eq_none_iff.1 hnone
      rw [hdrop] at hsum
      have hfront : t.takeWhile (· != ')') ++ [')'] <+: t :=
        ⟨after, by rw [List.append_assoc]; exact hsum⟩
      have hle := h.1 _ hfront
      simp [List.count_eq_zero.2 hopening] at hle
    next => exact ⟨_, rfl⟩

theorem exists_first? (g : Group) (h : Balanced g.text) : ∃ g', first? g.text = some g' :=
  exists_first?_of_mem h (by simp [text])

theorem first?_eq_none_iff {t : Text} (h : Balanced t) :
    first? t = none ↔ '(' ∉ t ∧ ')' ∉ t := by
  constructor
  · intro hnone
    have hclosing : ')' ∉ t := by
      intro hmem
      obtain ⟨g, hg⟩ := exists_first?_of_mem h hmem
      rw [hnone] at hg
      cases hg
    refine ⟨fun hmem => ?_, hclosing⟩
    have htotal := h.2
    have hpos := List.count_pos_iff.2 hmem
    rw [List.count_eq_zero.2 hclosing] at htotal
    omega
  · rintro ⟨hopening, -⟩
    refine Option.eq_none_iff_forall_ne_some.2 fun g hg => hopening ?_
    rw [← text_of_first? hg]
    simp [text]

/-- No pair of the text closes before the group that closes first. -/
theorem snd_le_of_closing_not_mem {g : Group} {x : Matching} (h : x.text = g.text)
    (hbefore : ')' ∉ g.before) : g.pair.2 ≤ x.pair.2 := by
  refine Nat.le_of_not_lt fun hlt => ?_
  have htext : (x.before ++ '(' :: x.inside) ++ ')' :: x.after =
      (g.before ++ '(' :: g.inside) ++ ')' :: g.after := by
    simpa [text, Matching.text] using h
  have hone : '('.utf8Size = 1 := rfl
  rcases List.append_eq_append_iff.1 htext with ⟨m, hfront, hm⟩ | ⟨m, hfront, hm⟩
  · cases m with
    | nil =>
      have hlength := congrArg Text.byteLength hfront
      simp only [pair, Matching.pair, Text.byteLength_append, Text.byteLength_cons, hone,
        Text.byteLength_nil] at hlength hlt
      omega
    | cons c m =>
      obtain ⟨rfl, -⟩ := List.cons.inj hm
      have hmem : ')' ∈ g.before ++ '(' :: g.inside := by
        rw [hfront]
        simp
      rcases List.mem_append.1 hmem with hmem | hmem
      · exact hbefore hmem
      · exact g.closing_not_mem (by simpa using hmem)
  · have hlength := congrArg Text.byteLength hfront
    simp only [pair, Matching.pair, Text.byteLength_append, Text.byteLength_cons, hone]
      at hlength hlt
    omega

end Group

/-! ## The pairs of a scan -/

namespace Parens

/-- A pair with no other pair inside. -/
def IsInnermost (m : Parens) (p : Nat × Nat) : Prop := p ∈ m.pairs ∧ ∀ q ∈ m.pairs, inside q p = false

/-- A pair with no parenthesis of the text inside. -/
def IsBare (m : Parens) (t : Text) (p : Nat × Nat) : Prop :=
  p ∈ m.pairs ∧ ∀ l c r, t = l ++ c :: r → isParen c = true →
    ¬ (p.1 < Text.byteLength l ∧ Text.byteLength l < p.2)

variable {t : Text} {m : Parens} {p q : Nat × Nat}

theorem exists_inside (h : scan? t = some m) (hp : p ∈ m.pairs) {l r : Text} {c : Char}
    (ht : t = l ++ c :: r) (hc : isParen c = true) (hlt : p.1 < Text.byteLength l)
    (hgt : Text.byteLength l < p.2) : ∃ q ∈ m.pairs, inside q p = true := by
  obtain ⟨q, ⟨hq, hends⟩, -⟩ := existsUnique_pair h ht hc
  refine ⟨q, hq, ?_⟩
  obtain ⟨y, -, hy⟩ := (mem_pairs_iff h).1 hq
  have horder := y.fst_lt_snd
  rw [hy] at horder
  have hcases := pairs_nested_or_apart h hp hq
  simp only [inside, Bool.and_eq_true, decide_eq_true_eq] at hcases ⊢
  rcases hcases with rfl | hcases | hcases | hcases <;> omega

theorem isInnermost_iff_isBare (h : scan? t = some m) : m.IsInnermost p ↔ m.IsBare t p := by
  refine and_congr_right fun hp => ⟨fun hnone l c r ht hc hbetween => ?_, fun hnone q hq => ?_⟩
  · obtain ⟨q, hq, hinside⟩ := exists_inside h hp ht hc hbetween.1 hbetween.2
    rw [hnone q hq] at hinside
    cases hinside
  · rw [← Bool.not_eq_true]
    intro hinside
    obtain ⟨y, hy, rfl⟩ := (mem_pairs_iff h).1 hq
    have horder := y.fst_lt_snd
    simp only [inside, Bool.and_eq_true, decide_eq_true_eq] at hinside
    exact hnone _ _ _ hy.symm rfl ⟨hinside.1, Nat.lt_trans horder hinside.2⟩

/-- **The innermost pairs of a text are its groups.** -/
theorem isInnermost_iff (h : scan? t = some m) :
    m.IsInnermost p ↔ ∃ g : Group, g.text = t ∧ g.pair = p := by
  constructor
  · intro hinnermost
    obtain ⟨x, hx, rfl⟩ := (mem_pairs_iff h).1 hinnermost.1
    have hbare := ((isInnermost_iff_isBare h).1 hinnermost).2
    have hnot (c : Char) (hc : isParen c = true) : c ∉ x.inside := by
      intro hmem
      obtain ⟨l, r, hinside⟩ := List.append_of_mem hmem
      have ht : t = (x.before ++ '(' :: l) ++ c :: (r ++ ')' :: x.after) := by
        rw [← hx, Matching.text, hinside]
        simp
      refine hbare _ c _ ht hc ?_
      have hone : '('.utf8Size = 1 := rfl
      have hpos := c.utf8Size_pos
      rw [Matching.pair, hinside]
      simp only [Text.byteLength_append, Text.byteLength_cons, hone]
      omega
    exact ⟨⟨x.before, x.inside, x.after, hnot _ rfl, hnot _ rfl⟩, hx, rfl⟩
  · rintro ⟨g, hg, rfl⟩
    refine ⟨(mem_pairs_iff h).2 ⟨g.matching, hg, rfl⟩, fun q hq => ?_⟩
    obtain ⟨y, hy, rfl⟩ := (mem_pairs_iff h).1 hq
    rw [← Bool.not_eq_true]
    intro hinside
    have horder := y.fst_lt_snd
    simp only [inside, Bool.and_eq_true, decide_eq_true_eq] at hinside
    exact g.opening_not_mem (Matching.opening_mem_inside (x := g.matching) (hg.trans hy.symm)
      hinside.1 (Nat.lt_trans horder hinside.2))

theorem innermost?_eq (h : scan? t = some m) : m.innermost? = (Group.first? t).map Group.pair := by
  have hinnermost (q : Nat × Nat) (hq : q ∈ m.pairs) :
      (!m.pairs.any (inside · q)) = true ↔ ∃ g : Group, g.text = t ∧ g.pair = q := by
    rw [← isInnermost_iff h]
    simp [IsInnermost, hq]
  cases hfirst : Group.first? t with
  | none =>
    refine List.find?_eq_none.2 fun q hq hpred => ?_
    obtain ⟨g, rfl, -⟩ := (hinnermost q hq).1 hpred
    have hbalanced := isSome_scan?_iff.1 (Option.isSome_iff_exists.2 ⟨m, h⟩)
    obtain ⟨g', hg'⟩ := g.exists_first? hbalanced
    rw [hfirst] at hg'
    cases hg'
  | some g =>
    have htext := Group.text_of_first? hfirst
    have hclosing := Group.closing_not_mem_of_first? hfirst
    obtain ⟨-, -, -, hsorted⟩ := scan?_eq_some h
    have hmem : g.pair ∈ m.pairs := ((isInnermost_iff h).2 ⟨g, htext, rfl⟩).1
    obtain ⟨l, r, hpairs, hnot⟩ := List.eq_append_cons_of_mem hmem
    refine List.find?_eq_some_iff_append.2 ⟨(hinnermost _ hmem).2 ⟨g, htext, rfl⟩, l, r, hpairs, ?_⟩
    intro q hq
    rw [Bool.not_eq_true', ← Bool.not_eq_true, hinnermost q (by simp [hpairs, hq])]
    rintro ⟨g', htext', rfl⟩
    -- a group that is listed before the first one would close before it
    rw [hpairs, List.pairwise_append] at hsorted
    have hle := hsorted.2.2 g'.pair hq g.pair (by simp)
    rcases Group.eq_or_precedes (htext'.trans htext.symm) with rfl | hbefore | hbehind
    · exact hnot hq
    · exact hclosing hbefore.closing_mem
    · exact absurd hbehind.pair_lt (Nat.not_lt.2 hle)

theorem innermost?_eq_none_iff (h : scan? t = some m) :
    m.innermost? = none ↔ '(' ∉ t ∧ ')' ∉ t := by
  rw [innermost?_eq h, Option.map_eq_none_iff]
  exact Group.first?_eq_none_iff (isSome_scan?_iff.1 (Option.isSome_iff_exists.2 ⟨m, h⟩))

theorem innermost?_eq_some_iff_closing (h : scan? t = some m) :
    m.innermost? = some p ↔ p ∈ m.pairs ∧ ∀ q ∈ m.pairs, p.2 ≤ q.2 := by
  have hfirst (q : Nat × Nat) (hq : m.innermost? = some q) :
      q ∈ m.pairs ∧ ∀ q' ∈ m.pairs, q.2 ≤ q'.2 := by
    rw [innermost?_eq h] at hq
    obtain ⟨g, hg, rfl⟩ := Option.map_eq_some_iff.1 hq
    have htext := Group.text_of_first? hg
    refine ⟨((isInnermost_iff h).2 ⟨g, htext, rfl⟩).1, fun q' hq' => ?_⟩
    obtain ⟨x, hx, rfl⟩ := (mem_pairs_iff h).1 hq'
    exact Group.snd_le_of_closing_not_mem (hx.trans htext.symm) (Group.closing_not_mem_of_first? hg)
  refine ⟨hfirst p, fun ⟨hp, hle⟩ => ?_⟩
  obtain ⟨x, hx, rfl⟩ := (mem_pairs_iff h).1 hp
  cases hinnermost : m.innermost? with
  | none =>
    refine absurd ?_ ((innermost?_eq_none_iff h).1 hinnermost).1
    rw [← hx, Matching.text]
    simp
  | some q =>
    obtain ⟨hq, hle'⟩ := hfirst q hinnermost
    obtain ⟨y, hy, rfl⟩ := (mem_pairs_iff h).1 hq
    have hsnd := Nat.le_antisymm (hle _ hq) (hle' _ hp)
    rw [Matching.eq_of_snd_eq (hx.trans hy.symm) hsnd]

theorem innermost?_eq_some_iff_opening (h : scan? t = some m) :
    m.innermost? = some p ↔ m.IsInnermost p ∧ ∀ q, m.IsInnermost q → p.1 ≤ q.1 := by
  have hinnermost (q : Nat × Nat) (hq : q ∈ m.pairs) :
      (!m.pairs.any (inside · q)) = true ↔ m.IsInnermost q := by
    simp [IsInnermost, hq]
  have hfirst (q : Nat × Nat) (hq : m.innermost? = some q) :
      m.IsInnermost q ∧ ∀ q', m.IsInnermost q' → q.1 ≤ q'.1 := by
    obtain ⟨hpred, l, r, hpairs, hnot⟩ := List.find?_eq_some_iff_append.1 hq
    have hmem : q ∈ m.pairs := List.mem_of_find?_eq_some hq
    refine ⟨(hinnermost q hmem).1 hpred, fun q' hq' => ?_⟩
    have hsorted := pairs_pairwise_lt h
    rw [hpairs, List.pairwise_append, List.pairwise_cons] at hsorted
    have hmem' := hq'.1
    rw [hpairs, List.mem_append, List.mem_cons] at hmem'
    rcases hmem' with hl | rfl | hr
    · have hfalse := hnot q' hl
      rw [(hinnermost q' hq'.1).2 hq'] at hfalse
      cases hfalse
    · exact Nat.le_refl _
    · exact Nat.le_of_lt (hsorted.2.1.1 q' hr)
  refine ⟨hfirst p, fun ⟨hp, hle⟩ => ?_⟩
  cases hfound : m.innermost? with
  | none =>
    have hnone := List.find?_eq_none.1 hfound p hp.1
    exact absurd ((hinnermost p hp.1).2 hp) hnone
  | some q =>
    obtain ⟨hq, hle'⟩ := hfirst q hfound
    obtain ⟨x, hx, rfl⟩ := (mem_pairs_iff h).1 hp.1
    obtain ⟨y, hy, rfl⟩ := (mem_pairs_iff h).1 hq.1
    have hfst := Nat.le_antisymm (hle _ hq) (hle' _ hp)
    rw [Matching.eq_of_fst_eq (hx.trans hy.symm) hfst]

/-! ## The scan of any text -/

/-- What it means that `m` is the matching of the parentheses of `t`. -/
structure IsMatchingOf (m : Parens) (t : Text) : Prop where
  /-- A pair is an opening and a closing parenthesis with a balanced text between them. -/
  mem_pairs_iff : ∀ p, p ∈ m.pairs ↔ ∃ x : Matching, x.text = t ∧ x.pair = p
  /-- Every parenthesis belongs to exactly one pair. -/
  existsUnique : ∀ l c r, t = l ++ c :: r → isParen c = true →
    ∃! p, p ∈ m.pairs ∧ (p.1 = Text.byteLength l ∨ p.2 = Text.byteLength l)
  /-- Two pairs are nested or apart. -/
  nested_or_apart : ∀ p ∈ m.pairs, ∀ q ∈ m.pairs,
    p = q ∨ inside p q = true ∨ inside q p = true ∨ p.2 < q.1 ∨ q.2 < p.1
  /-- The pairs are listed by their opening. -/
  pairwise : m.pairs.Pairwise fun p q => p.1 < q.1
  /-- The depth is the largest excess of opening parentheses in a prefix. -/
  depth : (∀ u, u <+: t → u.count '(' ≤ u.count ')' + m.depth) ∧
    ∃ u, u <+: t ∧ u.count '(' = u.count ')' + m.depth
  innermost_none : m.innermost? = none ↔ ∀ c ∈ t, isParen c = false
  /-- The innermost pair has no parenthesis inside, and is the first such pair. -/
  innermost_opening : ∀ p, m.innermost? = some p ↔
    m.IsBare t p ∧ ∀ q, m.IsBare t q → p.1 ≤ q.1
  /-- The innermost pair closes first. -/
  innermost_closing : ∀ p, m.innermost? = some p ↔ p ∈ m.pairs ∧ ∀ q ∈ m.pairs, p.2 ≤ q.2

/-- **A scan gives the matching of the parentheses, and fails exactly where there is none**: where a
prefix closes more than it opens, or the whole text not as many. -/
theorem scan?_exact (t : Text) :
    (scan? t = none ↔
      (∃ u, u <+: t ∧ u.count '(' < u.count ')') ∨ t.count '(' ≠ t.count ')') ∧
    ∀ m, scan? t = some m → m.IsMatchingOf t := by
  constructor
  · rw [scan?_eq_none_iff, Balanced, Closes]
    constructor
    · intro hnot
      by_cases hfront : ∀ u, u <+: t → u.count ')' ≤ 0 + u.count '('
      · exact .inr fun htotal => hnot ⟨hfront, by omega⟩
      · obtain ⟨u, hu⟩ := Classical.not_forall.1 hfront
        obtain ⟨huntil, hlt⟩ := Classical.not_imp.1 hu
        exact .inl ⟨u, huntil, by omega⟩
    · rintro (⟨u, hu, hlt⟩ | hne) ⟨hfront, htotal⟩
      · have hle := hfront u hu
        omega
      · omega
  · intro m h
    refine
      { mem_pairs_iff := fun p => Parens.mem_pairs_iff h
        existsUnique := fun l c r ht hc => existsUnique_pair h ht hc
        nested_or_apart := fun p hp q hq => pairs_nested_or_apart h hp hq
        pairwise := pairs_pairwise_lt h
        depth := nesting_eq_iff.1 (depth_of_scan? h).symm
        innermost_none := ?_
        innermost_opening := fun p => ?_
        innermost_closing := fun p => innermost?_eq_some_iff_closing h }
    · rw [innermost?_eq_none_iff h]
      simp only [isParen, Bool.or_eq_false_iff, beq_eq_false_iff_ne]
      exact ⟨fun hnot c hc => ⟨fun heq => hnot.1 (heq ▸ hc), fun heq => hnot.2 (heq ▸ hc)⟩,
        fun hall => ⟨fun hmem => (hall _ hmem).1 rfl, fun hmem => (hall _ hmem).2 rfl⟩⟩
    · rw [innermost?_eq_some_iff_opening h]
      simp only [isInnermost_iff_isBare h]

end Parens

end DeskCalculator
