import DeskCalculator.Text.Blank

/-!
# Trimming

A text is its trimmed form with blanks around it, and a text that starts or ends with another
character keeps that end when it is trimmed.
-/

namespace DeskCalculator

namespace Text

/-- A text of blanks. -/
def IsBlanks (t : Text) : Prop := ∀ c ∈ t, isBlank c = true

instance (t : Text) : Decidable (IsBlanks t) := List.decidableBAll _ t

theorem isBlanks_nil : IsBlanks [] := nofun

theorem IsBlanks.append {l r : Text} (hl : IsBlanks l) (hr : IsBlanks r) : IsBlanks (l ++ r) :=
  fun c hc => (List.mem_append.1 hc).elim (hl c) (hr c)

theorem not_mem_of_isBlanks {t : Text} (ht : IsBlanks t) {c : Char} (hc : isBlank c = false) :
    c ∉ t := by
  intro hmem
  rw [ht c hmem] at hc
  cases hc

theorem eq_append_trimStart (t : Text) : ∃ blanks, IsBlanks blanks ∧ t = blanks ++ trimStart t := by
  refine ⟨t.takeWhile isBlank, ?_, List.takeWhile_append_dropWhile.symm⟩
  intro c hc
  exact List.all_eq_true.1 List.all_takeWhile c hc

theorem eq_trimEnd_append (t : Text) : ∃ blanks, IsBlanks blanks ∧ t = trimEnd t ++ blanks := by
  obtain ⟨blanks, hblanks, h⟩ := eq_append_trimStart t.reverse
  refine ⟨blanks.reverse, fun c hc => hblanks c (List.mem_reverse.1 hc), ?_⟩
  rw [trimEnd, ← List.reverse_append]
  exact List.reverse_eq_iff.1 h

theorem eq_append_trim_append (t : Text) :
    ∃ l r, IsBlanks l ∧ IsBlanks r ∧ t = l ++ trim t ++ r := by
  obtain ⟨l, hl, hstart⟩ := eq_append_trimStart t
  obtain ⟨r, hr, hend⟩ := eq_trimEnd_append (trimStart t)
  refine ⟨l, r, hl, hr, ?_⟩
  rw [trim, List.append_assoc, ← hend]
  exact hstart

theorem trim_ne_nil {t : Text} {c : Char} (hc : c ∈ t) (hblank : isBlank c = false) : trim t ≠ [] := by
  intro h
  obtain ⟨l, r, hl, hr, hsum⟩ := eq_append_trim_append t
  rw [hsum, h, List.append_nil] at hc
  rcases List.mem_append.1 hc with hc | hc
  · exact not_mem_of_isBlanks hl hblank hc
  · exact not_mem_of_isBlanks hr hblank hc

theorem isBlank_of_head?_trimStart {t : Text} {c : Char} (h : (trimStart t).head? = some c) :
    isBlank c = false := by
  have hhead := List.head?_dropWhile_not isBlank t
  rw [trimStart] at h
  rw [h] at hhead
  simpa using hhead

theorem isBlank_of_getLast?_trimEnd {t : Text} {c : Char} (h : (trimEnd t).getLast? = some c) :
    isBlank c = false := by
  rw [trimEnd, List.getLast?_reverse] at h
  exact isBlank_of_head?_trimStart h

theorem trimStart_of_head? {t : Text} (h : ∀ c ∈ t.head?, isBlank c = false) :
    trimStart t = t := by
  cases t with
  | nil => rfl
  | cons c t => simp [trimStart, h c rfl]

theorem trimEnd_of_getLast? {t : Text} (h : ∀ c ∈ t.getLast?, isBlank c = false) :
    trimEnd t = t := by
  have hreverse : trimStart t.reverse = t.reverse :=
    trimStart_of_head? (by rwa [List.head?_reverse])
  rw [trimEnd]
  exact List.reverse_eq_iff.2 hreverse

theorem trimStart_append_of_isBlanks {l : Text} (hl : IsBlanks l) (r : Text) :
    trimStart (l ++ r) = trimStart r := by
  induction l with
  | nil => rfl
  | cons c l ih =>
    rw [List.cons_append, trimStart, List.dropWhile_cons, if_pos (hl c (by simp))]
    exact ih fun d hd => hl d (by simp [hd])

theorem trimEnd_append_of_isBlanks {r : Text} (hr : IsBlanks r) (l : Text) :
    trimEnd (l ++ r) = trimEnd l := by
  have hreverse := trimStart_append_of_isBlanks (fun c hc => hr c (List.mem_reverse.1 hc)) l.reverse
  rw [← List.reverse_append] at hreverse
  exact congrArg List.reverse hreverse

theorem trimStart_append (l r : Text) :
    trimStart (l ++ r) = if trimStart l = [] then trimStart r else trimStart l ++ r := by
  obtain ⟨blanks, hblanks, heq⟩ := eq_append_trimStart l
  conv => lhs; rw [heq, List.append_assoc, trimStart_append_of_isBlanks hblanks]
  split
  next hnil => rw [hnil, List.nil_append]
  next hne =>
    refine trimStart_of_head? fun c hc => isBlank_of_head?_trimStart (t := l) ?_
    obtain ⟨d, u, hcons⟩ := List.exists_cons_of_ne_nil hne
    rw [hcons] at hc ⊢
    exact hc

theorem trimEnd_append (l r : Text) :
    trimEnd (l ++ r) = if trimEnd r = [] then trimEnd l else l ++ trimEnd r := by
  have hdef (t : Text) : trimEnd t = (trimStart t.reverse).reverse := rfl
  rw [hdef, hdef l, hdef r, List.reverse_append, trimStart_append]
  by_cases hnil : trimStart r.reverse = []
  · rw [if_pos hnil, if_pos (List.reverse_eq_nil_iff.2 hnil)]
  · rw [if_neg hnil, if_neg fun h => hnil (List.reverse_eq_nil_iff.1 h), List.reverse_append,
      List.reverse_reverse]

theorem trimEnd_append_of_getLast? {l : Text} {c : Char} (hl : l.getLast? = some c)
    (hc : isBlank c = false) (r : Text) : trimEnd (l ++ r) = l ++ trimEnd r := by
  obtain ⟨blanks, hblanks, hr⟩ := eq_trimEnd_append r
  conv => lhs; rw [hr, ← List.append_assoc]
  rw [trimEnd_append_of_isBlanks hblanks, trimEnd_of_getLast?]
  intro d hd
  rw [List.getLast?_append] at hd
  cases hlast : (trimEnd r).getLast? with
  | none =>
    rw [hlast, hl] at hd
    rwa [← Option.some.inj hd]
  | some d' =>
    rw [hlast] at hd
    rw [← Option.some.inj hd]
    exact isBlank_of_getLast?_trimEnd hlast

theorem trimStart_append_cons (l : Text) {c : Char} (hc : isBlank c = false) (r : Text) :
    trimStart (l ++ c :: r) = trimStart l ++ c :: r := by
  induction l with
  | nil => exact trimStart_of_head? fun d hd => by rwa [← Option.some.inj hd]
  | cons d l ih =>
    cases hd : isBlank d with
    | true =>
      rw [trimStart, List.cons_append, List.dropWhile_cons_of_pos hd]
      rw [trimStart, List.dropWhile_cons_of_pos hd]
      exact ih
    | false => simp [trimStart, hd]

theorem head?_trimStart_append_cons (l : Text) {c : Char} (hc : isBlank c = false) (r : Text) :
    (trimStart (l ++ c :: r)).head? = some ((trimStart l).head?.getD c) := by
  rw [trimStart_append_cons l hc]
  cases trimStart l <;> rfl

theorem trimStart_eq_nil {t : Text} (h : trimStart t = []) : IsBlanks t := by
  obtain ⟨blanks, hblanks, heq⟩ := eq_append_trimStart t
  rw [h, List.append_nil] at heq
  rwa [heq]

/-! ## Trimmed texts -/

/-- A text with no blank at its ends. -/
structure IsTrimmed (t : Text) : Prop where
  head : ∀ c ∈ t.head?, isBlank c = false
  last : ∀ c ∈ t.getLast?, isBlank c = false

theorem trim_of_isTrimmed {t : Text} (h : IsTrimmed t) : trim t = t := by
  rw [trim, trimStart_of_head? h.head, trimEnd_of_getLast? h.last]

theorem trimEnd_append_cons (l : Text) {c : Char} (hc : isBlank c = false) (r : Text) :
    trimEnd (l ++ c :: r) = l ++ c :: trimEnd r := by
  have h := trimEnd_append_of_getLast? (List.getLast?_concat (l := l)) hc r
  rwa [List.append_assoc, List.append_assoc] at h

/-- The two ends of a text are trimmed apart from each other if a character stands between them. -/
theorem trim_append_cons (l : Text) {c : Char} (hc : isBlank c = false) (r : Text) :
    trim (l ++ c :: r) = trimStart l ++ c :: trimEnd r := by
  rw [trim, trimStart_append_cons l hc, trimEnd_append_cons _ hc]

theorem trim_blanks_append {l t r : Text} (hl : IsBlanks l) (h : IsTrimmed t) (hne : t ≠ [])
    (hr : IsBlanks r) : trim (l ++ t ++ r) = t := by
  have hstart : trimStart (t ++ r) = t ++ r := by
    refine trimStart_of_head? fun c hc => h.head c ?_
    obtain ⟨d, t, rfl⟩ := List.exists_cons_of_ne_nil hne
    exact hc
  rw [trim, List.append_assoc, trimStart_append_of_isBlanks hl, hstart,
    trimEnd_append_of_isBlanks hr, trimEnd_of_getLast? h.last]

theorem isTrimmed_trim (t : Text) : IsTrimmed (trim t) where
  head := by
    intro c hc
    obtain ⟨blanks, -, hsum⟩ := eq_trimEnd_append (trimStart t)
    refine isBlank_of_head?_trimStart (t := t) ?_
    rw [hsum, List.head?_append, ← trim, Option.mem_def.1 hc]
    rfl
  last _ hc := isBlank_of_getLast?_trimEnd hc

theorem trim_of_isBlanks {t : Text} (h : IsBlanks t) : trim t = [] := by
  have hstart := trimStart_append_of_isBlanks h []
  rw [List.append_nil] at hstart
  rw [trim, hstart]
  rfl

theorem trim_append_of_isBlanks {l r : Text} (hl : IsBlanks l) (hr : IsBlanks r) (t : Text) :
    trim (l ++ t ++ r) = trim t := by
  obtain ⟨l', r', hl', hr', ht⟩ := eq_append_trim_append t
  by_cases hnil : trim t = []
  · rw [hnil, List.append_nil] at ht
    rw [hnil, ht]
    exact trim_of_isBlanks ((hl.append (hl'.append hr')).append hr)
  · have hsum : l ++ t ++ r = (l ++ l') ++ trim t ++ (r' ++ r) := by
      conv => lhs; rw [ht]
      simp
    rw [hsum]
    exact trim_blanks_append (hl.append hl') (isTrimmed_trim t) hnil (hr'.append hr)

namespace IsTrimmed

variable {l r : Text}

theorem exists_eq_trim_append (h : IsTrimmed (l ++ r)) : ∃ blanks, IsBlanks blanks ∧
    l = trim l ++ blanks := by
  have hstart : trimStart l = l := by
    refine trimStart_of_head? fun c hc => h.head c ?_
    rw [List.head?_append, Option.mem_def.1 hc]
    rfl
  rw [trim, hstart]
  exact eq_trimEnd_append l

theorem exists_eq_append_trim (h : IsTrimmed (l ++ r)) : ∃ blanks, IsBlanks blanks ∧
    r = blanks ++ trim r := by
  obtain ⟨blanks, hblanks, heq⟩ := eq_append_trimStart r
  have hend : trimEnd (trimStart r) = trimStart r := by
    refine trimEnd_of_getLast? fun c hc => h.last c ?_
    rw [heq, ← List.append_assoc, List.getLast?_append, Option.mem_def.1 hc]
    rfl
  rw [trim, hend]
  exact ⟨blanks, hblanks, heq⟩

end IsTrimmed

theorem isTrimmed_append {l m r : Text} (hl : ∀ c ∈ l.head?, isBlank c = false) (hm : IsTrimmed m)
    (hne : m ≠ []) (hr : ∀ c ∈ r.getLast?, isBlank c = false) : IsTrimmed (l ++ m ++ r) where
  head := by
    intro c hc
    rw [List.append_assoc, List.head?_append, List.head?_append] at hc
    cases h : l.head? with
    | some d =>
      rw [h] at hc
      exact hl c (h ▸ hc)
    | none =>
      rw [h, List.head?_eq_some_head hne] at hc
      exact hm.head c (List.head?_eq_some_head hne ▸ hc)
  last := by
    intro c hc
    rw [List.getLast?_append, List.getLast?_append] at hc
    cases h : r.getLast? with
    | some d =>
      rw [h] at hc
      exact hr c (h ▸ hc)
    | none =>
      rw [h, List.getLast?_eq_some_getLast hne] at hc
      exact hm.last c (List.getLast?_eq_some_getLast hne ▸ hc)

/-! ## Texts without blanks -/

/-- A text of visible ASCII characters. -/
def IsGraphic (t : Text) : Prop := ∀ c ∈ t, 32 < c.toNat ∧ c.toNat < 127

instance (t : Text) : Decidable (IsGraphic t) := List.decidableBAll _ t

theorem isBlank_of_isGraphic {t : Text} (h : IsGraphic t) {c : Char} (hc : c ∈ t) :
    isBlank c = false := by
  have hrange := h c hc
  simp only [isBlank, blankRanges, List.any_cons, List.any_nil, Bool.or_false, Bool.or_eq_false_iff,
    Bool.and_eq_false_iff, decide_eq_false_iff_not]
  omega

theorem not_mem_of_isGraphic {t : Text} (h : IsGraphic t) {c : Char} (hc : 127 ≤ c.toNat) : c ∉ t := by
  intro hmem
  have hrange := h c hmem
  omega

theorem isGraphic_nil : IsGraphic [] := nofun

theorem IsGraphic.append {l r : Text} (hl : IsGraphic l) (hr : IsGraphic r) :
    IsGraphic (l ++ r) := by
  intro c hc
  rcases List.mem_append.1 hc with h | h
  · exact hl c h
  · exact hr c h

theorem IsGraphic.cons {c : Char} {t : Text} (hc : 32 < c.toNat ∧ c.toNat < 127)
    (ht : IsGraphic t) : IsGraphic (c :: t) := by
  intro d hd
  rcases List.mem_cons.1 hd with rfl | h
  · exact hc
  · exact ht d h

theorem trimEnd_of_isGraphic {t : Text} (h : IsGraphic t) : trimEnd t = t :=
  trimEnd_of_getLast? fun _ hc => isBlank_of_isGraphic h (List.mem_of_getLast? hc)

theorem trimStart_of_isGraphic {t : Text} (h : IsGraphic t) : trimStart t = t :=
  trimStart_of_head? fun _ hc => isBlank_of_isGraphic h (List.mem_of_head? hc)

theorem isTrimmed_of_isGraphic {t : Text} (h : IsGraphic t) : IsTrimmed t where
  head _ hc := isBlank_of_isGraphic h (List.mem_of_head? hc)
  last _ hc := isBlank_of_isGraphic h (List.mem_of_getLast? hc)

theorem trim_of_isGraphic {t : Text} (h : IsGraphic t) : trim t = t :=
  trim_of_isTrimmed (isTrimmed_of_isGraphic h)

end Text

end DeskCalculator
