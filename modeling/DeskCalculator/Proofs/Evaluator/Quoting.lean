import DeskCalculator.Proofs.Evaluator.Arithmetic
import DeskCalculator.Proofs.Evaluator.Checks
import DeskCalculator.Proofs.Evaluator.Spelling
import DeskCalculator.Proofs.Expr.Reading
import DeskCalculator.Proofs.Json.OneLine
import DeskCalculator.Proofs.Reduction.Order
import DeskCalculator.Proofs.Token.Exactness

/-!
# What errors quote

Some errors quote a part of the expression as it stands (`CalcError.quoted`). All else in a message is
worded on one line, so that a message has the line breaks of what it quotes and no others
(`CalcError.count_newline_message`).

In the standard mode an error quotes a lexeme at most, and a lexeme holds no blank
(`failsWith_standard`). In the legacy mode it quotes at most a text that cannot be read, blanks included;
a line break in it stands in the expression already (`failsWith_reduction`), for the numbers that are
written into a text hold none.
-/

namespace DeskCalculator

/-! ## Messages -/

/-- The part of an expression that a fault quotes. -/
def Fault.quoted : Fault → Text
  | unreadable t | malformedNumber t | unknownFunction t => t
  | unexpectedCharacter c => [c]
  | _ => []

/-- The part of an expression that an error quotes. -/
def CalcError.quoted : CalcError → Text
  | invalid fault => fault.quoted
  | _ => []

theorem Text.newline_not_mem_ofNat (n : Nat) : '\n' ∉ ofNat n := fun hc =>
  absurd (Nat.isDigit_of_mem_toDigits (by decide) (by decide) hc) (by decide)

namespace Binary64

theorem newline_not_mem_signed {t : Text} (h : '\n' ∉ t) (negative : Bool) :
    '\n' ∉ signed negative t := by
  intro hc
  rcases mem_signed hc with hc | hc
  · exact absurd hc (by decide)
  · exact h hc

theorem newline_not_mem_display (x : Binary64) : '\n' ∉ x.display := by
  cases x with
  | nan => decide
  | infinite negative => exact newline_not_mem_signed (by decide) negative
  | finite negative m =>
    exact newline_not_mem_signed (NumberStyle.newline_not_mem_write (by decide) m) negative

theorem newline_not_mem_general (x : Binary64) : '\n' ∉ x.general := by
  unfold general
  split
  · decide
  · split
    · exact newline_not_mem_signed (NumberStyle.newline_not_mem_write (by decide) _) _
    · exact newline_not_mem_display _

end Binary64

theorem Token.newline_not_mem_display (token : Token) : '\n' ∉ token.display := by
  cases token with
  | number x => exact x.newline_not_mem_display
  | operator op => cases op <;> decide
  | opening => decide
  | closing => decide
  | root => decide

theorem Token.count_newline_quoted (t : Text) : (quoted t).count '\n' = t.count '\n' := by
  simp [quoted]

theorem count_newline_append {word : Text} (h : '\n' ∉ word) (t : Text) :
    (word ++ t).count '\n' = t.count '\n' := by
  rw [List.count_append, List.count_eq_zero.2 h, Nat.zero_add]

theorem count_newline_concat {word : Text} (h : '\n' ∉ word) (t : Text) :
    (t ++ word).count '\n' = t.count '\n' := by
  rw [List.count_append, List.count_eq_zero.2 h, Nat.add_zero]

theorem count_newline_between {word words : Text} (h : '\n' ∉ word) (hs : '\n' ∉ words)
    (t u : Text) : (word ++ t ++ words ++ u).count '\n' = t.count '\n' + u.count '\n' := by
  rw [List.count_append, count_newline_concat hs, count_newline_append h]

theorem Fault.count_newline_message (fault : Fault) :
    fault.message.count '\n' = fault.quoted.count '\n' := by
  have htoken (token : Token) : token.display.count '\n' = 0 :=
    List.count_eq_zero.2 token.newline_not_mem_display
  cases fault with
  | unreadable t | malformedNumber t | unknownFunction t =>
    exact (count_newline_append (by simp) _).trans (Token.count_newline_quoted t)
  | unexpectedCharacter c =>
    exact (count_newline_append (by simp) _).trans (Token.count_newline_quoted [c])
  | numberExpected token | closingExpected token =>
    exact (count_newline_append (by simp) _).trans (htoken token)
  | rootWithoutGroup found =>
    cases found with
    | none => decide
    | some token => exact (count_newline_append (by simp) _).trans (htoken token)
  | unexpectedToken token position =>
    refine (count_newline_between (by simp) (by simp) _ _).trans ?_
    rw [htoken, List.count_eq_zero.2 (Text.newline_not_mem_ofNat position)]
    rfl
  | _ => decide

theorem CalcError.count_newline_message (e : CalcError) :
    e.message.count '\n' = e.quoted.count '\n' := by
  have hlimit (n limit : Nat) : (Text.ofNat n).count '\n' + (Text.ofNat limit).count '\n' = 0 := by
    rw [List.count_eq_zero.2 (Text.newline_not_mem_ofNat n),
      List.count_eq_zero.2 (Text.newline_not_mem_ofNat limit)]
  cases e with
  | invalid fault => exact (count_newline_append (by simp) _).trans fault.count_newline_message
  | negativeRoot x =>
    exact (count_newline_append (by simp) _).trans
      (List.count_eq_zero.2 x.newline_not_mem_display)
  | tooLong n limit | tooDeep n limit =>
    refine (count_newline_concat (by simp) _).trans ?_
    exact (count_newline_between (by simp) (by simp) _ _).trans (hlimit n limit)
  | _ => decide

theorem CalcError.IsArithmetic.quoted_eq_nil {e : CalcError} (h : e.IsArithmetic) :
    e.quoted = [] := by
  cases e with
  | invalid fault =>
    rw [h.eq_notANumber]
    rfl
  | _ => rfl

/-! ## The standard mode -/

/-- An error that quotes no blank. -/
def CalcError.QuotesNoBlank (e : CalcError) : Prop := ∀ c ∈ e.quoted, Text.isBlank c = false

theorem CalcError.QuotesNoBlank.of_eq_nil {e : CalcError} (h : e.quoted = []) : e.QuotesNoBlank := by
  intro c hc
  rw [h] at hc
  cases hc

theorem Lexeme.quotesNoBlank_complaint {x : Lexeme} (h : (Piece.lexeme x).WellFormed) :
    x.complaint.QuotesNoBlank := by
  cases x with
  | numeral t =>
    rw [complaint]
    split
    · exact .of_eq_nil rfl
    · exact fun c hc => Piece.not_isBlank_of_isNumeral (h.2.1 c hc)
  | word t => exact fun c hc => Piece.not_isBlank_of_isAlpha (h.2 c hc)
  | mark c =>
    intro d hd
    rw [List.mem_singleton.1 hd]
    exact h.2

theorem failsWith_tokenize (t : Text) : FailsWith CalcError.QuotesNoBlank (tokenize t) := by
  intro e he
  obtain ⟨ps, hps⟩ := Cuts.exists_cuts t
  obtain ⟨front, x, rest, hsum, -, -, rfl⟩ := (tokenize_eq_error_iff_of_cuts hps).1 he
  have hmem : x ∈ ps.filterMap Piece.lexeme? := by simp [hsum]
  exact Lexeme.quotesNoBlank_complaint (wellFormed_of_mem_filterMap hps hmem)

theorem Fault.IsSyntactic.quoted_eq_nil {fault : Fault} (h : fault.IsSyntactic) :
    fault.quoted = [] := by
  cases fault <;> first | rfl | exact h.elim

/-- The parser names tokens, and quotes no part of the text. -/
theorem quoted_of_ofTokens {ts : List Token} {e : CalcError} (h : Expr.ofTokens ts = .error e) :
    e.quoted = [] := by
  rcases ofTokens_eq_error h with ⟨fault, hfault, rfl⟩ | ⟨rfl, -⟩
  · exact hfault.quoted_eq_nil
  · rfl

theorem failsWith_standard (t : Text) :
    FailsWith CalcError.QuotesNoBlank (Mode.standard.evaluate t) := by
  have hparse : FailsWith CalcError.QuotesNoBlank (Expr.parse t) :=
    (failsWith_tokenize t).bind fun ts _ e he => .of_eq_nil (quoted_of_ofTokens he)
  exact hparse.bind fun e _ => (failsWith_eval e).imp fun _ he => .of_eq_nil he.quoted_eq_nil

/-! ## The legacy mode -/

/-- An error that quotes nothing, or a text that cannot be read and that has a line break only if `t`
has one. -/
inductive CalcError.QuotesUnreadable (t : Text) : CalcError → Prop
  | nothing {e : CalcError} : e.quoted = [] → QuotesUnreadable t e
  | unreadable {u : Text} : ('\n' ∈ u → '\n' ∈ t) → QuotesUnreadable t (.invalid (.unreadable u))

theorem CalcError.QuotesUnreadable.of_newline {t u : Text} (h : '\n' ∈ u → '\n' ∈ t) {e : CalcError}
    (he : e.QuotesUnreadable u) : e.QuotesUnreadable t := by
  cases he with
  | nothing hnil => exact .nothing hnil
  | unreadable hnewline => exact .unreadable (h ∘ hnewline)

theorem CalcError.IsArithmetic.quotesUnreadable {e : CalcError} (h : e.IsArithmetic) (t : Text) :
    e.QuotesUnreadable t := .nothing h.quoted_eq_nil

theorem failsWith_split (t : Text) :
    FailsWith (CalcError.QuotesUnreadable t) (Split.ofText t).eval := by
  fun_induction Split.ofText t with
  | case1 => exact failsWith_error (.nothing rfl)
  | case2 t _ e h => exact failsWith_error ((failsWith_literal? _ e h).quotesUnreadable t)
  | case3 => exact failsWith_ok _
  | case4 t => exact failsWith_error (.unreadable (Text.trim_sublist t).mem)
  | case5 t _ _ op left right hcut ihl ihr =>
    have hparts := eq_append_of_cut? hcut
    have hleft (h : '\n' ∈ left) : '\n' ∈ t := (Text.trim_sublist t).mem (by simp [hparts, h])
    have hright (h : '\n' ∈ right) : '\n' ∈ t := (Text.trim_sublist t).mem (by simp [hparts, h])
    exact (ihl.imp fun _ => .of_newline hleft).bind fun x _ =>
      (ihr.imp fun _ => .of_newline hright).bind fun y _ =>
        (failsWith_apply op x y).imp fun _ he => he.quotesUnreadable t

namespace Group

theorem failsWith_checkNeighbours (g : Group) :
    FailsWith (CalcError.QuotesUnreadable g.text) g.checkNeighbours := by
  unfold checkNeighbours
  split
  · exact failsWith_error (.nothing rfl)
  · split
    · exact failsWith_error (.nothing rfl)
    · exact failsWith_ok _

theorem failsWith_value (g : Group) : FailsWith (CalcError.QuotesUnreadable g.text) g.value := by
  have hinside (h : '\n' ∈ g.inside) : '\n' ∈ g.text := by simp [text, h]
  refine g.failsWith_checkNeighbours.bind fun _ _ =>
    ((failsWith_split g.inside).imp fun _ => .of_newline hinside).bind fun y _ => ?_
  split
  · exact (failsWith_squareRoot y).imp fun _ he => he.quotesUnreadable g.text
  · exact failsWith_ok _

/-- A value brings no line break into a text. -/
theorem newline_mem_of_splice {g : Group} {x : Binary64} (h : '\n' ∈ g.splice x) :
    '\n' ∈ g.text := by
  obtain ⟨behind, hbefore⟩ := g.before_eq_append
  have hplaced (hmem : '\n' ∈ (g.placed x).1) : '\n' ∈ g.before := by
    rw [hbefore]
    refine List.mem_append_left _ ?_
    unfold placed at hmem
    rcases absorbSign_cases (Text.trimEnd g.front.1) x with heq | ⟨-, f, ⟨hf, heq⟩ | ⟨hf, heq⟩⟩
    · rwa [heq] at hmem
    · rw [heq] at hmem
      simpa [hf] using hmem
    · rw [heq] at hmem
      simpa [hf] using hmem
  rw [splice_eq, List.mem_append, List.mem_append] at h
  rcases h with (h | h) | h
  · simp [text, hplaced h]
  · exact absurd h (Binary64.not_mem_plain (by decide) (by decide))
  · simp [text, h]

end Group

theorem failsWith_reduction (t : Text) :
    FailsWith (CalcError.QuotesUnreadable t) (Reduction.ofText t).eval := by
  fun_induction Reduction.ofText t with
  | case1 t e h => exact failsWith_error ((failsWith_literal? t e h).quotesUnreadable t)
  | case2 => exact failsWith_ok _
  | case3 => exact failsWith_error (.nothing rfl)
  | case4 t => exact failsWith_split t
  | case5 t _ _ g hg e hresolve =>
    rw [← Group.text_of_first? hg]
    exact failsWith_error (g.failsWith_value e (Group.resolve_eq_error_iff.1 hresolve))
  | case6 t _ _ g hg result hresolve ih =>
    obtain ⟨x, -, rfl⟩ := Group.resolve_eq_ok_iff.1 hresolve
    refine ih.imp fun _ => .of_newline fun h => ?_
    rw [← Group.text_of_first? hg]
    exact Group.newline_mem_of_splice ((Text.trim_sublist _).mem h)

/-! ## Every evaluation -/

theorem newline_mem_of_normalize {s : Text} (h : '\n' ∈ normalize s) : '\n' ∈ s := by
  rw [normalize_eq] at h
  rcases mem_respell ((Text.trim_sublist _).mem h) with hkey | hword
  · obtain ⟨c, hc, hkey⟩ := List.mem_map.1 hkey
    rwa [← (key_eq_iff (by decide)).1 hkey]
  · exact absurd hword (by decide)

/-- An error quotes no blank, or else, in the legacy mode, a text that cannot be read. -/
theorem Evaluator.quoted_cases {ev : Evaluator} {s : Text} {e : CalcError}
    (h : ev.evaluate s = .error e) :
    e.QuotesNoBlank ∨ ev.mode = .legacy ∧ e.QuotesUnreadable s := by
  by_cases hnil : normalize s = []
  · rw [ev.evaluate_of_normalize_eq_nil hnil] at h
    cases h
  · rw [ev.evaluate_of_normalize_ne_nil hnil, evaluateNormalized] at h
    split at h
    next => exact .inl (failsWith_error (.of_eq_nil rfl) e h)
    next =>
      split at h
      next e' hliteral =>
        obtain rfl := Except.error.inj h
        exact .inl (.of_eq_nil (failsWith_literal? _ e' hliteral).quoted_eq_nil)
      next => cases h
      next =>
        split at h
        next => exact .inl (failsWith_error (.of_eq_nil rfl) e h)
        next =>
          split at h
          next => exact .inl (failsWith_error (.of_eq_nil rfl) e h)
          next =>
            cases hmode : ev.mode with
            | standard =>
              rw [hmode] at h
              exact .inl (failsWith_standard _ e h)
            | legacy =>
              rw [hmode] at h
              have hreduction := failsWith_reduction (Text.trim (normalize s)) e h
              exact .inr ⟨rfl, hreduction.of_newline fun hmem =>
                newline_mem_of_normalize ((Text.trim_sublist _).mem hmem)⟩

theorem Evaluator.of_newline_mem_quoted {ev : Evaluator} {s : Text} {e : CalcError}
    (h : ev.evaluate s = .error e) (hmem : '\n' ∈ e.quoted) :
    ev.mode = .legacy ∧ '\n' ∈ s ∧ ∃ t, e = .invalid (.unreadable t) := by
  rcases quoted_cases h with hblank | ⟨hmode, hnil | hnewline⟩
  · exact absurd (hblank _ hmem) (by decide)
  · rw [hnil] at hmem
    cases hmem
  · exact ⟨hmode, hnewline hmem, _, rfl⟩

end DeskCalculator
