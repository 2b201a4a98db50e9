import DeskCalculator.Proofs.Expr.Rendering

/-!
# Spelling in one pass

The replacements of `normalize` come one after the other, each over the whole text. None of them meets
what another one wrote, so that they are one pass over the text (`respell`, `foldl_spellings`): a sign that
a keyboard lacks becomes its key, and a root becomes its word with an opening parenthesis, which takes
the place of one that follows.
-/

namespace DeskCalculator

/-- The key for a sign of an operator. -/
def key : Char → Char
  | '×' => '*'
  | '÷' => '/'
  | c => c

/-- The spelling of a text, from the left. -/
def respell : Text → Text
  | [] => []
  | '√' :: '(' :: t => "sqrt(".toList ++ respell t
  | '√' :: t => "sqrt(".toList ++ respell t
  | c :: t => key c :: respell t

theorem key_of_ne {c : Char} (hcross : c ≠ '×') (hobelus : c ≠ '÷') : key c = c := by
  unfold key
  split
  next => exact absurd rfl hcross
  next => exact absurd rfl hobelus
  next => rfl

theorem key_eq_iff {c d : Char} (h : d ∉ ['×', '÷', '*', '/']) : key c = d ↔ c = d := by
  simp only [List.mem_cons, List.not_mem_nil, or_false, not_or] at h
  unfold key
  split
  next => exact iff_of_false (Ne.symm h.2.2.1) (Ne.symm h.1)
  next => exact iff_of_false (Ne.symm h.2.2.2) (Ne.symm h.2.1)
  next => exact Iff.rfl

/-! ## Replacing -/

theorem replaceAll_char (c : Char) (w t : Text) :
    Text.replaceAll [c] w t = t.flatMap fun d => if d = c then w else [d] := by
  unfold Text.replaceAll
  induction t with
  | nil => rfl
  | cons d t ih =>
    rw [Text.replaceFrom, List.flatMap_cons, ← ih]
    by_cases hd : d = c
    · subst hd
      simp
    · simp [hd, Ne.symm hd]

theorem replaceAll_char_char (c d : Char) (t : Text) :
    Text.replaceAll [c] [d] t = t.map fun e => if e = c then d else e := by
  rw [replaceAll_char, List.map_eq_flatMap]
  refine congrArg (t.flatMap ·) (funext fun e => ?_)
  split <;> rfl

theorem replaceAll_pair (c d : Char) (w t : Text) :
    Text.replaceAll [c, d] w (c :: d :: t) = w ++ Text.replaceAll [c, d] w t := by
  simp [Text.replaceAll, Text.replaceFrom]

theorem replaceAll_pair_of_not {c d e : Char} (w : Text) {t : Text}
    (h : ¬ (e = c ∧ t.head? = some d)) :
    Text.replaceAll [c, d] w (e :: t) = e :: Text.replaceAll [c, d] w t := by
  have hprefix : [c, d].isPrefixOf (e :: t) = false := by
    rw [Bool.eq_false_iff]
    intro hpre
    obtain ⟨r, hr⟩ := List.isPrefixOf_iff_prefix.1 hpre
    obtain ⟨rfl, rfl⟩ := List.cons.inj hr
    exact h ⟨rfl, rfl⟩
  rw [Text.replaceAll, Text.replaceFrom, hprefix]
  rfl

theorem replaceAll_signs (t : Text) :
    Text.replaceAll ['÷'] ['/'] (Text.replaceAll ['×'] ['*'] t) = t.map key := by
  rw [replaceAll_char_char, replaceAll_char_char, List.map_map]
  refine List.map_congr_left fun c _ => ?_
  by_cases hcross : c = '×'
  · subst hcross
    decide
  · by_cases hobelus : c = '÷'
    · subst hobelus
      decide
    · simp [hcross, hobelus, key_of_ne hcross hobelus]

theorem replaceAll_roots (t : Text) :
    Text.replaceAll ['√'] "sqrt(".toList
      (Text.replaceAll ['√', '('] "sqrt(".toList (t.map key)) = respell t := by
  have hword (u : Text) : Text.replaceAll ['√'] "sqrt(".toList ("sqrt(".toList ++ u) =
      "sqrt(".toList ++ Text.replaceAll ['√'] "sqrt(".toList u := by
    simp [replaceAll_char]
  have hopening {u : Text} (h : (u.map key).head? = some '(') (hnot : ∀ v, u = '(' :: v → False) :
      False := by
    cases u with
    | nil => cases h
    | cons c u => exact hnot u (by rw [(key_eq_iff (by decide)).1 (Option.some.inj h)])
  fun_induction respell t with
  | case1 => rfl
  | case2 t ih =>
    show Text.replaceAll _ _ (Text.replaceAll _ _ ('√' :: '(' :: t.map key)) = _
    rw [replaceAll_pair, hword, ih]
  | case3 t hnot ih =>
    have hhead : ¬ ('√' = '√' ∧ (t.map key).head? = some '(') := by
      rintro ⟨-, hhead⟩
      exact hopening hhead hnot
    show Text.replaceAll _ _ (Text.replaceAll _ _ ('√' :: t.map key)) = _
    rw [replaceAll_pair_of_not _ hhead, ← ih]
    simp [replaceAll_char]
  | case4 c t _ hc ih =>
    have hkey : key c ≠ '√' := fun h => hc ((key_eq_iff (by decide)).1 h)
    rw [List.map_cons, replaceAll_pair_of_not _ (by simp [hkey]), ← ih]
    simp [replaceAll_char, hkey]

/-- **One pass spells a text.** -/
theorem foldl_spellings (t : Text) :
    spellings.foldl (fun t spelling => Text.replaceAll spelling.1 spelling.2 t) t = respell t := by
  simp only [spellings, List.foldl_cons, List.foldl_nil]
  rw [replaceAll_signs, replaceAll_roots]

theorem normalize_eq (t : Text) : normalize t = Text.trim (respell t) :=
  congrArg Text.trim (foldl_spellings t)

/-! ## Spelling a text in parts -/

theorem map_key_of_not_mem {t : Text} (hcross : '×' ∉ t) (hobelus : '÷' ∉ t) : t.map key = t := by
  have hid : ∀ c ∈ t, key c = id c := by
    intro c hc
    refine key_of_ne ?_ ?_
    · rintro rfl
      exact hcross hc
    · rintro rfl
      exact hobelus hc
  rw [List.map_congr_left hid, List.map_id]

theorem map_key_of_isGraphic {t : Text} (h : Text.IsGraphic t) : t.map key = t :=
  map_key_of_not_mem (Text.not_mem_of_isGraphic h (by decide)) (Text.not_mem_of_isGraphic h (by decide))

theorem respell_cons {c : Char} (h : c ≠ '√') (t : Text) : respell (c :: t) = key c :: respell t := by
  rw [respell]
  · exact fun _ hc => absurd hc h
  · exact h

theorem respell_root {t : Text} (h : t.head? ≠ some '(') :
    respell ('√' :: t) = "sqrt(".toList ++ respell t := by
  rw [respell]
  rintro u rfl
  exact h rfl

theorem respell_of_not_mem {t : Text} (h : '√' ∉ t) : respell t = t.map key := by
  fun_induction respell t with
  | case1 => rfl
  | case2 => simp at h
  | case3 => simp at h
  | case4 c t _ _ ih => rw [List.map_cons, ih (List.not_mem_of_not_mem_cons h)]

/-- A text may be spelt in two parts unless they part a root from its parenthesis. -/
theorem respell_append {l r : Text} (h : l.getLast? = some '√' → r.head? ≠ some '(') :
    respell (l ++ r) = respell l ++ respell r := by
  have hlast {c : Char} {u : Text} (h : (c :: u).getLast? = some '√' → r.head? ≠ some '(')
      (hu : u.getLast? = some '√') : r.head? ≠ some '(' := h (by rw [List.getLast?_cons, hu]; rfl)
  fun_induction respell l with
  | case1 => rfl
  | case2 t ih =>
    rw [List.cons_append, List.cons_append, respell, ih (hlast (hlast h)), List.append_assoc]
  | case3 t hnot ih =>
    have hhead : (t ++ r).head? ≠ some '(' := by
      cases t with
      | nil => exact h rfl
      | cons c t => exact fun heq => hnot t (by rw [← Option.some.inj heq])
    rw [List.cons_append, respell_root hhead, ih (hlast h), List.append_assoc]
  | case4 c t _ hc ih => rw [List.cons_append, respell_cons hc, ih (hlast h), List.cons_append]

theorem mem_respell {t : Text} {c : Char} (h : c ∈ respell t) : c ∈ t.map key ∨ c ∈ "sqrt(".toList := by
  fun_induction respell t with
  | case1 => cases h
  | case2 t ih =>
    rcases List.mem_append.1 h with h | h
    · exact .inr h
    · exact (ih h).imp_left fun h => by simp [h]
  | case3 t _ ih =>
    rcases List.mem_append.1 h with h | h
    · exact .inr h
    · exact (ih h).imp_left fun h => by simp [h]
  | case4 c t _ _ ih =>
    rcases List.mem_cons.1 h with rfl | h
    · exact .inl (by simp)
    · exact (ih h).imp_left fun h => by simp [h]

theorem opening_mem_respell {t : Text} (h : '√' ∈ t) : '(' ∈ respell t := by
  fun_induction respell t with
  | case1 => cases h
  | case2 => simp
  | case3 => simp
  | case4 c t _ hc ih =>
    exact List.mem_cons_of_mem _ (ih ((List.mem_cons.1 h).resolve_left fun heq => hc heq.symm))

theorem closing_not_mem_respell {t : Text} (h : ')' ∉ t) : ')' ∉ respell t := by
  intro hmem
  rcases mem_respell hmem with hmem | hmem
  · obtain ⟨c, hc, hkey⟩ := List.mem_map.1 hmem
    rw [(key_eq_iff (by decide)).1 hkey] at hc
    exact h hc
  · revert hmem
    decide

theorem exists_respell_opening (h : Text) :
    ∃ front : Text, (∀ u, respell (h ++ '(' :: u) = front ++ '(' :: respell u) ∧
      ('(' ∉ front → front = h.map key ∨
        ∃ h', h = h' ++ ['√'] ∧ front = h'.map key ++ Token.rootWord) := by
  by_cases hlast : h.getLast? = some '√'
  · obtain ⟨h', rfl⟩ := List.getLast?_eq_some_iff.1 hlast
    refine ⟨respell h' ++ Token.rootWord, fun u => ?_, fun hnot => .inr ⟨h', rfl, ?_⟩⟩
    · have happend := respell_append (l := h') (r := '√' :: '(' :: u) fun _ => by simp
      rw [List.append_assoc, List.append_assoc]
      exact happend
    · rw [respell_of_not_mem fun hmem => hnot (List.mem_append_left _ (opening_mem_respell hmem))]
  · refine ⟨respell h, fun u => ?_, fun hnot => .inl ?_⟩
    · rw [respell_append fun h => absurd h hlast, respell_cons (by decide)]
      rfl
    · exact respell_of_not_mem fun hmem => hnot (opening_mem_respell hmem)

theorem exists_normalize_group {h t : Text} (hh : ')' ∉ h) (ht : ')' ∉ t) :
    ∃ front back : Text, ')' ∉ front ∧ ')' ∉ back ∧
      (∀ body, Text.IsGraphic body →
        normalize (h ++ '(' :: (body ++ ')' :: t)) = front ++ '(' :: (body ++ ')' :: back)) ∧
      ('(' ∉ front → front = Text.trimStart (h.map key) ∨
        ∃ h', h = h' ++ ['√'] ∧ front = Text.trimStart (h'.map key ++ Token.rootWord)) := by
  obtain ⟨front, hspelt, hcases⟩ := exists_respell_opening h
  have hclosing : ')' ∉ front := by
    intro hmem
    refine closing_not_mem_respell (t := h ++ ['(']) (by simp [hh]) ?_
    rw [hspelt]
    simp [hmem]
  refine ⟨Text.trimStart front, Text.trimEnd (respell t),
    fun hmem => hclosing ((Text.trimStart_sublist _).mem hmem),
    fun hmem => closing_not_mem_respell ht ((Text.trimEnd_sublist _).mem hmem), ?_, ?_⟩
  · intro body hbody
    have hroot : '√' ∉ body := Text.not_mem_of_isGraphic hbody (by decide)
    rw [normalize_eq, hspelt, respell_append (l := body) (by simp), respell_of_not_mem hroot,
      map_key_of_isGraphic hbody, respell_cons (by decide), Text.trim_append_cons _ (by decide)]
    refine congrArg (Text.trimStart front ++ '(' :: ·) ?_
    exact Text.trimEnd_append_cons body (by decide) _
  · intro hnot
    have hopening : '(' ∉ front := by
      obtain ⟨blanks, hblanks, heq⟩ := Text.eq_append_trimStart front
      rw [heq, List.mem_append, not_or]
      exact ⟨Text.not_mem_of_isBlanks hblanks (by decide), hnot⟩
    rcases hcases hopening with rfl | ⟨h', rfl, rfl⟩
    · exact .inl rfl
    · exact .inr ⟨h', rfl, rfl⟩

end DeskCalculator
