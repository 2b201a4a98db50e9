import DeskCalculator.Parens.Basic

/-!
# Balanced texts

What `Parens.scan?` finds out about a text depends on the numbers of parentheses in its prefixes. The
scan succeeds exactly on the texts in which no prefix closes more than it opens and the whole text as
many (`isSome_scan?_iff`), and its depth is the largest excess of a prefix (`depth_of_scan?`).

A scan with parentheses open is one of the rest of a text, so the inductions are about
`Closes opened t`, where `opened` stands for the stack of the scan.
-/

namespace DeskCalculator

/-- The text closes `opened` parentheses more than it opens, and no prefix of it more than those. -/
def Closes (opened : Nat) (t : Text) : Prop :=
  (∀ u, u <+: t → u.count ')' ≤ opened + u.count '(') ∧ t.count ')' = opened + t.count '('

/-- The parentheses of a text match. -/
def Balanced (t : Text) : Prop := Closes 0 t

/-- The largest number of parentheses that a prefix opens and does not close. -/
def nesting : Text → Nat
  | [] => 0
  | c :: t => if c = '(' then nesting t + 1 else if c = ')' then nesting t - 1 else nesting t

/-- A parenthesis. -/
def isParen (c : Char) : Bool := c == '(' || c == ')'

/-! ## The nesting is that of a prefix -/

theorem count_le_nesting {t u : Text} (h : u <+: t) :
    u.count '(' ≤ u.count ')' + nesting t := by
  induction t generalizing u with
  | nil =>
    obtain rfl := List.prefix_nil.1 h
    simp
  | cons c t ih =>
    rcases List.prefix_cons_iff.1 h with rfl | ⟨v, rfl, hv⟩
    · simp
    · have hle := ih hv
      rw [nesting]
      by_cases hopening : c = '('
      · subst hopening
        simp
        omega
      · by_cases hclosing : c = ')'
        · subst hclosing
          simp
          omega
        · simp [hopening, hclosing, hle]

theorem exists_count_eq_nesting (t : Text) :
    ∃ u, u <+: t ∧ u.count '(' = u.count ')' + nesting t := by
  induction t with
  | nil => exact ⟨[], List.prefix_refl _, rfl⟩
  | cons c t ih =>
    obtain ⟨v, hv, hcount⟩ := ih
    have hcons : c :: v <+: c :: t := (List.prefix_cons_inj c).2 hv
    rw [nesting]
    by_cases hopening : c = '('
    · subst hopening
      refine ⟨_, hcons, ?_⟩
      simp
      omega
    · by_cases hclosing : c = ')'
      · subst hclosing
        by_cases hzero : nesting t = 0
        · exact ⟨[], List.nil_prefix, by simp [hzero]⟩
        · refine ⟨_, hcons, ?_⟩
          simp
          omega
      · refine ⟨_, hcons, ?_⟩
        simp [hopening, hclosing, hcount]

theorem nesting_eq_iff {t : Text} {n : Nat} :
    nesting t = n ↔ (∀ u, u <+: t → u.count '(' ≤ u.count ')' + n) ∧
      ∃ u, u <+: t ∧ u.count '(' = u.count ')' + n := by
  constructor
  · rintro rfl
    exact ⟨fun u hu => count_le_nesting hu, exists_count_eq_nesting t⟩
  · rintro ⟨hle, u, hu, hcount⟩
    obtain ⟨v, hv, hnesting⟩ := exists_count_eq_nesting t
    have hupper := count_le_nesting hu
    have hlower := hle v hv
    omega

/-! ## One character -/

theorem closes_cons_iff {k : Nat} {c : Char} {t : Text} :
    Closes k (c :: t) ↔ (∀ u, u <+: t → (c :: u).count ')' ≤ k + (c :: u).count '(') ∧
      (c :: t).count ')' = k + (c :: t).count '(' := by
  refine and_congr_left fun _ => ⟨fun h u hu => h _ ((List.prefix_cons_inj c).2 hu), fun h u hu => ?_⟩
  rcases List.prefix_cons_iff.1 hu with rfl | ⟨v, rfl, hv⟩
  · simp
  · exact h v hv

@[simp] theorem closes_nil_iff {k : Nat} : Closes k [] ↔ k = 0 := by
  constructor
  · intro h
    simpa using h.2.symm
  · rintro rfl
    refine ⟨fun u hu => ?_, rfl⟩
    rw [List.prefix_nil.1 hu]
    simp

@[simp] theorem closes_opening_cons_iff {k : Nat} {t : Text} :
    Closes k ('(' :: t) ↔ Closes (k + 1) t := by
  rw [closes_cons_iff, Closes]
  have hcount (u : Text) : ('(' :: u).count ')' = u.count ')' ∧
      k + ('(' :: u).count '(' = k + 1 + u.count '(' := by
    simp
    omega
  simp only [hcount]

@[simp] theorem closes_closing_cons_iff {k : Nat} {t : Text} :
    Closes k (')' :: t) ↔ ∃ j, k = j + 1 ∧ Closes j t := by
  rw [closes_cons_iff]
  have hcount (u : Text) : (')' :: u).count ')' = u.count ')' + 1 ∧
      (')' :: u).count '(' = u.count '(' := by simp
  simp only [hcount]
  constructor
  · rintro ⟨hpart, htotal⟩
    cases k with
    | zero =>
      have hnil := hpart [] List.nil_prefix
      simp at hnil
    | succ j =>
      refine ⟨j, rfl, fun u hu => ?_, by omega⟩
      have hu' := hpart u hu
      omega
  · rintro ⟨j, rfl, hpart, htotal⟩
    refine ⟨fun u hu => ?_, by omega⟩
    have hu' := hpart u hu
    omega

theorem closes_cons_of_not_isParen {k : Nat} {c : Char} {t : Text} (hc : isParen c = false) :
    Closes k (c :: t) ↔ Closes k t := by
  simp only [isParen, Bool.or_eq_false_iff, beq_eq_false_iff_ne] at hc
  rw [closes_cons_iff, Closes]
  have hcount (u : Text) : (c :: u).count ')' = u.count ')' ∧ (c :: u).count '(' = u.count '(' := by
    simp [hc]
  simp only [hcount]

/-! ## Only the parentheses count -/

theorem closes_filter_iff {k : Nat} {t : Text} : Closes k (t.filter isParen) ↔ Closes k t := by
  induction t generalizing k with
  | nil => rfl
  | cons c t ih =>
    by_cases hc : isParen c = true
    · rw [List.filter_cons_of_pos hc]
      have hparen := hc
      simp only [isParen, Bool.or_eq_true, beq_iff_eq] at hparen
      rcases hparen with rfl | rfl
      · rw [closes_opening_cons_iff, closes_opening_cons_iff, ih]
      · rw [closes_closing_cons_iff, closes_closing_cons_iff]
        simp only [ih]
    · rw [List.filter_cons_of_neg hc, closes_cons_of_not_isParen (by simpa using hc), ih]

theorem nesting_filter (t : Text) : nesting (t.filter isParen) = nesting t := by
  induction t with
  | nil => rfl
  | cons c t ih =>
    by_cases hc : isParen c = true
    · rw [List.filter_cons_of_pos hc, nesting, nesting, ih]
    · have hnot := hc
      simp only [isParen, Bool.or_eq_true, beq_iff_eq, not_or] at hnot
      rw [List.filter_cons_of_neg hc, nesting, if_neg hnot.1, if_neg hnot.2, ih]

theorem nesting_eq_of_filter_eq {t u : Text} (h : t.filter isParen = u.filter isParen) :
    nesting t = nesting u := by
  rw [← nesting_filter t, h, nesting_filter]

theorem balanced_iff_of_filter_eq {t u : Text} (h : t.filter isParen = u.filter isParen) :
    Balanced t ↔ Balanced u := by
  rw [Balanced, Balanced, ← closes_filter_iff, h, closes_filter_iff]

/-- The parentheses of the text match each other, whatever stands behind it. -/
def Neutral (t : Text) : Prop := ∀ k r, Closes k (t ++ r) ↔ Closes k r

theorem neutral_nil : Neutral [] := fun _ _ => Iff.rfl

theorem neutral_of_not_mem {t : Text} (hopening : '(' ∉ t) (hclosing : ')' ∉ t) : Neutral t := by
  induction t with
  | nil => exact neutral_nil
  | cons c t ih =>
    simp only [List.mem_cons, not_or] at hopening hclosing
    have hc : isParen c = false := by simp [isParen, Ne.symm hopening.1, Ne.symm hclosing.1]
    intro k r
    rw [List.cons_append, closes_cons_of_not_isParen hc]
    exact ih hopening.2 hclosing.2 k r

/-- What a text closes in front, the text behind need not. -/
theorem Closes.append_iff {j k : Nat} {t : Text} (h : Closes j t) (r : Text) :
    Closes (j + k) (t ++ r) ↔ Closes k r := by
  induction t generalizing j with
  | nil =>
    rw [closes_nil_iff.1 h, Nat.zero_add]
    rfl
  | cons c t ih =>
    rw [List.cons_append]
    by_cases hc : isParen c = true
    · simp only [isParen, Bool.or_eq_true, beq_iff_eq] at hc
      rcases hc with rfl | rfl
      · rw [closes_opening_cons_iff, ← ih (closes_opening_cons_iff.1 h), Nat.add_right_comm]
      · obtain ⟨i, rfl, hi⟩ := closes_closing_cons_iff.1 h
        rw [closes_closing_cons_iff, ← ih hi]
        refine ⟨?_, fun hrest => ⟨_, Nat.add_right_comm i 1 k, hrest⟩⟩
        rintro ⟨i', heq, hrest⟩
        obtain rfl : i' = i + k := by omega
        exact hrest
    · have hother : isParen c = false := by simpa using hc
      rw [closes_cons_of_not_isParen hother]
      exact ih ((closes_cons_of_not_isParen hother).1 h)

theorem neutral_of_balanced {t : Text} (h : Balanced t) : Neutral t := by
  intro k r
  have happend := Closes.append_iff (k := k) h r
  rwa [Nat.zero_add] at happend

namespace Neutral

variable {t u : Text}

theorem append (ht : Neutral t) (hu : Neutral u) : Neutral (t ++ u) := by
  intro k r
  rw [List.append_assoc, ht, hu]

theorem group (ht : Neutral t) : Neutral ('(' :: (t ++ [')'])) := by
  intro k r
  rw [List.cons_append, closes_opening_cons_iff, List.append_assoc, ht]
  simp

theorem balanced (ht : Neutral t) : Balanced t := by
  have h := (ht 0 []).2 (closes_nil_iff.2 rfl)
  rwa [List.append_nil] at h

/-- The text makes no difference where it stands. -/
theorem closes_append_iff (ht : Neutral t) {k : Nat} (l r : Text) :
    Closes k (l ++ (t ++ r)) ↔ Closes k (l ++ r) := by
  induction l generalizing k with
  | nil => exact ht k r
  | cons c l ih =>
    rw [List.cons_append, List.cons_append]
    by_cases hc : isParen c = true
    · simp only [isParen, Bool.or_eq_true, beq_iff_eq] at hc
      rcases hc with rfl | rfl
      · rw [closes_opening_cons_iff, closes_opening_cons_iff, ih]
      · rw [closes_closing_cons_iff, closes_closing_cons_iff]
        simp only [ih]
    · have hother : isParen c = false := by simpa using hc
      rw [closes_cons_of_not_isParen hother, closes_cons_of_not_isParen hother, ih]

end Neutral

/-! ## The scan -/

namespace Parens

theorem scanFrom_opening (opened : List Nat) (offset : Nat) (t : Text) :
    scanFrom opened offset ('(' :: t) = (scanFrom (offset :: opened) (offset + '('.utf8Size) t).map
      fun later => ⟨later.pairs, max (opened.length + 1) later.depth⟩ := by
  rw [scanFrom.eq_def]
  show (if '(' = '(' then _ else _) = _
  rw [if_pos rfl]
  cases scanFrom (offset :: opened) (offset + '('.utf8Size) t <;> rfl

theorem scanFrom_closing_nil (offset : Nat) (t : Text) : scanFrom [] offset (')' :: t) = none := by
  rw [scanFrom.eq_def]
  rfl

theorem scanFrom_closing_cons (start : Nat) (opened : List Nat) (offset : Nat) (t : Text) :
    scanFrom (start :: opened) offset (')' :: t) = (scanFrom opened (offset + ')'.utf8Size) t).map
      fun later => ⟨(start, offset) :: later.pairs, later.depth⟩ := by
  rw [scanFrom.eq_def]
  show (if ')' = '(' then _ else if ')' = ')' then _ else _) = _
  rw [if_neg (by decide), if_pos rfl]
  show (scanFrom opened (offset + ')'.utf8Size) t >>= fun later => some _) = _
  cases scanFrom opened (offset + ')'.utf8Size) t <;> rfl

theorem scanFrom_of_not_isParen {c : Char} (hc : isParen c = false) (opened : List Nat)
    (offset : Nat) (t : Text) :
    scanFrom opened offset (c :: t) = scanFrom opened (offset + c.utf8Size) t := by
  simp only [isParen, Bool.or_eq_false_iff, beq_eq_false_iff_ne] at hc
  rw [scanFrom.eq_def]
  simp only [hc, if_false]

theorem isSome_scanFrom_iff {opened : List Nat} {offset : Nat} {t : Text} :
    (scanFrom opened offset t).isSome = true ↔ Closes opened.length t := by
  induction t generalizing opened offset with
  | nil => by_cases h : opened = [] <;> simp [scanFrom, h]
  | cons c t ih =>
    by_cases hc : isParen c = true
    · simp only [isParen, Bool.or_eq_true, beq_iff_eq] at hc
      rcases hc with rfl | rfl
      · rw [scanFrom_opening, Option.isSome_map, ih, closes_opening_cons_iff, List.length_cons]
      · rw [closes_closing_cons_iff]
        cases opened with
        | nil => simp [scanFrom_closing_nil]
        | cons start opened => simp [scanFrom_closing_cons, ih]
    · have hother : isParen c = false := by simpa using hc
      rw [scanFrom_of_not_isParen hother, ih, closes_cons_of_not_isParen hother]

theorem depth_of_scanFrom {opened : List Nat} {offset : Nat} {t : Text} {m : Parens}
    (h : scanFrom opened offset t = some m) :
    max opened.length m.depth = opened.length + nesting t := by
  induction t generalizing opened offset m with
  | nil =>
    rw [scanFrom] at h
    split at h
    next =>
      obtain rfl := Option.some.inj h
      simp [nesting]
    next => cases h
  | cons c t ih =>
    rw [nesting]
    by_cases hc : isParen c = true
    · simp only [isParen, Bool.or_eq_true, beq_iff_eq] at hc
      rcases hc with rfl | rfl
      · rw [scanFrom_opening] at h
        obtain ⟨later, hlater, rfl⟩ := Option.map_eq_some_iff.1 h
        have hdepth := ih hlater
        rw [List.length_cons] at hdepth
        simp only [if_true]
        omega
      · cases opened with
        | nil =>
          rw [scanFrom_closing_nil] at h
          cases h
        | cons start opened =>
          rw [scanFrom_closing_cons] at h
          obtain ⟨later, hlater, rfl⟩ := Option.map_eq_some_iff.1 h
          have hdepth := ih hlater
          simp only [List.length_cons, if_true, if_neg (show ')' ≠ '(' by decide)]
          omega
    · have hother : isParen c = false := by simpa using hc
      rw [scanFrom_of_not_isParen hother] at h
      simp only [isParen, Bool.or_eq_false_iff, beq_eq_false_iff_ne] at hother
      simp only [hother, if_false]
      exact ih h

theorem isSome_scan?_iff {t : Text} : (scan? t).isSome = true ↔ Balanced t := by
  have hscan : scan? t = (scanFrom [] 0 t).map fun found =>
      ⟨found.pairs.mergeSort fun p q => decide (p.1 ≤ q.1), found.depth⟩ := by
    unfold scan?
    cases scanFrom [] 0 t <;> rfl
  rw [hscan, Option.isSome_map, isSome_scanFrom_iff]
  rfl

theorem scan?_eq_none_iff {t : Text} : scan? t = none ↔ ¬ Balanced t := by
  rw [← isSome_scan?_iff]
  simp

theorem depth_of_scan? {t : Text} {m : Parens} (h : scan? t = some m) : m.depth = nesting t := by
  obtain ⟨found, hfound, hm⟩ := Option.bind_eq_some_iff.1 h
  obtain rfl := Option.some.inj hm
  have hdepth := depth_of_scanFrom hfound
  simpa using hdepth

end Parens

end DeskCalculator
