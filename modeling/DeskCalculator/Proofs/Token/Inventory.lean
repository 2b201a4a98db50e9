import DeskCalculator.Proofs.Expr.Grammar
import DeskCalculator.Proofs.Literal.Sign
import DeskCalculator.Proofs.Token.Segmentation

/-!
# What the tokens tell about a text

The last character of a text tells what its last token is (`exists_last_token`). A character that
belongs to no run stands in as many lexemes as in the text (`count_lexemes`), so that the tokens have
the parentheses of the text (`count_of_tokenize`). A literal is a run of signs, of one at most, and a
number (`tokenize_of_literal?`).
-/

namespace DeskCalculator

open Literal (isNumeral)

namespace Lexeme

/-- The characters of a lexeme are those of its kind. -/
def WellFormed : Lexeme → Prop
  | numeral t => ∀ c ∈ t, isNumeral c = true
  | word t => ∀ c ∈ t, c.isAlpha = true
  | mark c => IsMark c

theorem isNumeral_of_mem_numeralRun {pointSeen : Bool} {t : Text} {c : Char}
    (h : c ∈ (numeralRun pointSeen t).1) : isNumeral c = true := by
  induction t generalizing pointSeen with
  | nil => simp [numeralRun] at h
  | cons d t ih =>
    rw [numeralRun] at h
    split at h
    next hd =>
      rcases List.mem_cons.1 h with rfl | hmem
      · simp only [Bool.or_eq_true, Bool.and_eq_true] at hd
        simp only [isNumeral, Bool.or_eq_true]
        exact hd.imp_right And.left
      · exact ih hmem
    next => simp at h

theorem wellFormed_cut (c : Char) (u : Text) : (cut c u).1.WellFormed := by
  unfold cut
  split
  next =>
    show ∀ d ∈ (numeralRun false (c :: u)).1, isNumeral d = true
    exact fun d hd => isNumeral_of_mem_numeralRun hd
  next hnumeral =>
    split
    next halpha =>
      intro d hd
      rcases List.mem_cons.1 hd with rfl | hmem
      · exact halpha
      · exact List.all_eq_true.1 List.all_takeWhile d hmem
    next halpha => exact ⟨by simpa using hnumeral, by simpa using halpha⟩

end Lexeme

theorem wellFormed_of_mem_lexemes {t : Text} {x : Lexeme} (h : x ∈ lexemes t) : x.WellFormed := by
  fun_induction lexemes t with
  | case1 => simp at h
  | case2 t c u _ ih =>
    rcases List.mem_cons.1 h with rfl | hmem
    · exact Lexeme.wellFormed_cut c u
    · exact ih hmem

/-! ## The last token -/

theorem exists_last_lexeme {t : Text} {c : Char} (hlast : t.getLast? = some c)
    (hc : Text.isBlank c = false) :
    ∃ front x, lexemes t = front ++ [x] ∧ x.text.getLast? = some c := by
  fun_induction lexemes t with
  | case1 t h =>
    have hblank := Text.trimStart_eq_nil h c (List.mem_of_getLast? hlast)
    simp [hc] at hblank
  | case2 t d u h ih =>
    obtain ⟨blanks, -, hsum⟩ := Text.eq_append_trimStart t
    rw [h, ← Lexeme.cut_append d u, ← List.append_assoc] at hsum
    rw [hsum, List.getLast?_append] at hlast
    cases hrest : (Lexeme.cut d u).2.getLast? with
    | some c' =>
      rw [hrest] at hlast
      obtain rfl := Option.some.inj hlast
      obtain ⟨front, x, hfront, hx⟩ := ih hrest
      exact ⟨(Lexeme.cut d u).1 :: front, x, by rw [hfront, List.cons_append], hx⟩
    | none =>
      have hnil : (Lexeme.cut d u).2 = [] := List.getLast?_eq_none_iff.1 hrest
      have htext : (Lexeme.cut d u).1.text ≠ [] := by
        intro hempty
        have hlen := Lexeme.length_cut_lt d u
        have hcut := congrArg List.length (Lexeme.cut_append d u)
        rw [hempty, List.nil_append] at hcut
        omega
      refine ⟨[], (Lexeme.cut d u).1, by rw [hnil, lexemes_nil, List.nil_append], ?_⟩
      rw [hrest, Option.none_or, List.getLast?_append] at hlast
      cases hend : (Lexeme.cut d u).1.text.getLast? with
      | none => exact absurd (List.getLast?_eq_none_iff.1 hend) htext
      | some c' => rwa [hend, Option.some_or] at hlast

/-- The characters that a token may end with. -/
def Token.EndsWith (c : Char) : Token → Prop
  | number _ => isNumeral c = true
  | operator op => c = op.symbol
  | opening => c = '('
  | closing => c = ')'
  | root => c.isAlpha = true

theorem Lexeme.endsWith_of_token {x : Lexeme} {token : Token} {c : Char} (hx : x.WellFormed)
    (htoken : x.token = .ok token) (hc : x.text.getLast? = some c) : token.EndsWith c := by
  have hmem := List.mem_of_getLast? hc
  cases x with
  | numeral t =>
    rw [Lexeme.token] at htoken
    split at htoken <;> simp at htoken
    rw [← htoken]
    exact hx c hmem
  | word t =>
    rw [Lexeme.token] at htoken
    split at htoken <;> simp at htoken
    rw [← htoken]
    exact hx c hmem
  | mark d =>
    obtain rfl : d = c := by simpa [Lexeme.text] using hc
    rw [Lexeme.token] at htoken
    split at htoken
    next hopening =>
      rw [← Except.ok.inj htoken]
      exact hopening
    next =>
      split at htoken
      next hclosing =>
        rw [← Except.ok.inj htoken]
        exact hclosing
      next =>
        split at htoken
        next op hop =>
          rw [← Except.ok.inj htoken]
          exact Operator.ofSymbol?_eq_some_iff.1 hop
        next => simp at htoken

/-- **The last character of a text tells its last token.** -/
theorem exists_last_token {t : Text} {c : Char} {ts : List Token} (hlast : t.getLast? = some c)
    (hc : Text.isBlank c = false) (h : tokenize t = .ok ts) :
    ∃ front token, ts = front ++ [token] ∧ token.EndsWith c := by
  obtain ⟨front, x, hfront, hx⟩ := exists_last_lexeme hlast hc
  have hwf : x.WellFormed := wellFormed_of_mem_lexemes (t := t) (by rw [hfront]; simp)
  rw [tokenize_eq_mapM, hfront, mapM_append_eq_ok_iff] at h
  obtain ⟨us, vs, -, hvs, rfl⟩ := h
  obtain ⟨token, _, htoken, hnil, rfl⟩ := mapM_cons_eq_ok_iff.1 hvs
  cases hnil
  exact ⟨us, token, rfl, Lexeme.endsWith_of_token hwf htoken hx⟩

/-! ## Parentheses -/

/-- A character that belongs to no run is a lexeme wherever it stands. -/
theorem count_lexemes {c : Char} (hblank : Text.isBlank c = false) (hmark : IsMark c) (t : Text) :
    (lexemes t).count (.mark c) = t.count c := by
  have hkind {x : Lexeme} (hx : x.WellFormed) : [x].count (.mark c) = x.text.count c := by
    cases x with
    | mark d => by_cases hd : d = c <;> simp [Lexeme.text, hd]
    | numeral t =>
      have hnot : c ∉ t := fun hc => by simpa [hx c hc] using hmark.1
      simp [Lexeme.text, List.count_eq_zero.2 hnot]
    | word t =>
      have hnot : c ∉ t := fun hc => by simpa [hx c hc] using hmark.2
      simp [Lexeme.text, List.count_eq_zero.2 hnot]
  have hblanks {b : Text} (hb : Text.IsBlanks b) : b.count c = 0 :=
    List.count_eq_zero.2 fun hc => by simp [hb c hc] at hblank
  fun_induction lexemes t with
  | case1 t h => exact (hblanks (Text.trimStart_eq_nil h)).symm
  | case2 t d u h ih =>
    obtain ⟨b, hb, hsum⟩ := Text.eq_append_trimStart t
    rw [h, ← Lexeme.cut_append d u] at hsum
    rw [hsum, List.count_append, List.count_append, hblanks hb, ← ih,
      ← hkind (Lexeme.wellFormed_cut d u), List.count_cons, List.count_singleton]
    omega

theorem Lexeme.token_eq_opening_iff {x : Lexeme} : x.token = .ok .opening ↔ x = .mark '(' := by
  constructor
  · intro h
    unfold Lexeme.token at h
    split at h
    · split at h <;> simp at h
    · split at h <;> simp at h
    · split at h
      · simp_all
      · split at h
        · simp at h
        · split at h <;> simp at h
  · rintro rfl
    rfl

theorem Lexeme.token_eq_closing_iff {x : Lexeme} : x.token = .ok .closing ↔ x = .mark ')' := by
  constructor
  · intro h
    unfold Lexeme.token at h
    split at h
    · split at h <;> simp at h
    · split at h <;> simp at h
    · split at h
      · simp at h
      · split at h
        · simp_all
        · split at h <;> simp at h
  · rintro rfl
    rfl

theorem count_of_mapM_token {xs : List Lexeme} {ts : List Token} {x : Lexeme} {token : Token}
    (hx : ∀ y : Lexeme, y.token = .ok token ↔ y = x) (h : xs.mapM Lexeme.token = .ok ts) :
    ts.count token = xs.count x := by
  induction xs generalizing ts with
  | nil =>
    cases h
    rfl
  | cons y xs ih =>
    obtain ⟨u, us, hu, hus, rfl⟩ := mapM_cons_eq_ok_iff.1 h
    have hiff : u = token ↔ y = x := by
      rw [← hx y, hu]
      simp
    rw [List.count_cons, List.count_cons, ih hus]
    simp [hiff]

theorem count_of_tokenize {t : Text} {ts : List Token} (h : tokenize t = .ok ts) :
    ts.count .opening = t.count '(' ∧ ts.count .closing = t.count ')' := by
  rw [tokenize_eq_mapM] at h
  constructor
  · rw [← count_lexemes (by decide) (by decide) t]
    exact count_of_mapM_token (fun _ => Lexeme.token_eq_opening_iff) h
  · rw [← count_lexemes (by decide) (by decide) t]
    exact count_of_mapM_token (fun _ => Lexeme.token_eq_closing_iff) h

/-! ## Literals -/

theorem Lexeme.numeralRun_of_isUnsigned {pointSeen : Bool} {t : Text}
    (hnumeral : ∀ c ∈ t, isNumeral c = true) (hpoints : t.count '.' ≤ if pointSeen then 0 else 1) :
    numeralRun pointSeen t = (t, []) := by
  induction t generalizing pointSeen with
  | nil => rfl
  | cons c t ih =>
    have hc := hnumeral c (by simp)
    have ht : ∀ d ∈ t, isNumeral d = true := fun d hd => hnumeral d (by simp [hd])
    simp only [isNumeral, Bool.or_eq_true, beq_iff_eq] at hc
    rw [List.count_cons] at hpoints
    rw [numeralRun]
    by_cases hpoint : c = '.'
    · subst hpoint
      simp only [beq_self_eq_true, if_true] at hpoints
      have hseen : pointSeen = false := by
        cases pointSeen with
        | false => rfl
        | true => simp at hpoints
      subst hseen
      have hzero : t.count '.' ≤ if true then 0 else 1 := by simpa using hpoints
      rw [if_pos (by decide), show (false || '.' == '.') = true from rfl, ih ht hzero]
    · have hdigit : c.isDigit = true := hc.resolve_right hpoint
      have hseen : (pointSeen || c == '.') = pointSeen := by simp [hpoint]
      have hsame : t.count '.' ≤ if pointSeen then 0 else 1 := by simpa [hpoint] using hpoints
      rw [if_pos (by simp [hdigit]), hseen, ih ht hsame]

theorem lexemes_of_isUnsigned {t : Text} (h : Literal.isUnsigned t = true) :
    lexemes t = [.numeral t] := by
  have hall := h
  simp only [Literal.isUnsigned, Bool.and_eq_true, List.all_eq_true, decide_eq_true_eq] at hall
  obtain ⟨⟨hnumeral, hdigit⟩, hpoints⟩ := hall
  cases t with
  | nil => simp at hdigit
  | cons c t =>
    have hc := hnumeral c (by simp)
    have htrim : Text.trimStart (c :: t) = c :: t := by
      refine Text.trimStart_of_head? fun d hd => ?_
      obtain rfl := Option.some.inj hd
      cases hblank : Text.isBlank c with
      | false => rfl
      | true => simpa [hc] using (isMark_of_isBlank hblank).1
    have hrun : Lexeme.numeralRun false (c :: t) = _ :=
      Lexeme.numeralRun_of_isUnsigned hnumeral hpoints
    rw [lexemes_of_trimStart_eq_cons htrim, Lexeme.cut, if_pos hc, hrun]
    simp

theorem tokenize_of_isUnsigned {t : Text} {x : Binary64} (h : Literal.isUnsigned t = true)
    (hx : literal? t = .ok (some x)) : tokenize t = .ok [.number x] := by
  rw [tokenize_eq_mapM, lexemes_of_isUnsigned h]
  refine mapM_cons_eq_ok_iff.2 ⟨.number x, [], ?_, rfl, rfl⟩
  rw [Lexeme.token, hx]

namespace Literal

/-- The number that an unsigned literal is, if it is finite. -/
def unsigned (body : Text) : Binary64 := (Literal.mk false (unsignedValue body)).value

theorem exists_signs_of_ofText? {t : Text} {l : Literal} (h : ofText? t = some l) :
    ∃ (signs : List Operator) (body : Text), (∀ op ∈ signs, op.IsAdditive) ∧ isUnsigned body = true ∧
      t = signs.map Operator.symbol ++ body ∧
        l.value = if signs.count .subtract % 2 = 1 then (unsigned body).neg else unsigned body := by
  obtain ⟨body, hbody, hdecimal, hcases⟩ := exists_of_ofText? h
  obtain ⟨negative, decimal⟩ := l
  obtain rfl : decimal = unsignedValue body := hdecimal
  rcases hcases with ⟨rfl, hsign⟩ | ⟨rfl, hsign⟩ | ⟨rfl, hsign⟩
  · obtain rfl : negative = false := hsign
    exact ⟨[], t, by simp, hbody, rfl, (if_neg (by decide)).symm⟩
  · obtain rfl : negative = false := hsign
    exact ⟨[.add], body, by simp [Operator.IsAdditive], hbody, rfl, (if_neg (by decide)).symm⟩
  · obtain rfl : negative = true := hsign
    exact ⟨[.subtract], body, by simp [Operator.IsAdditive], hbody, rfl,
      (value_neg _).trans (if_pos (by decide)).symm⟩

end Literal

theorem tokenize_signs_append (signs : List Operator) (t : Text) :
    tokenize (signs.map Operator.symbol ++ t) = (tokenize t).map (signs.map .operator ++ ·) := by
  induction signs with
  | nil =>
    rw [List.map_nil, List.nil_append]
    cases tokenize t <;> rfl
  | cons op signs ih =>
    rw [List.map_cons, List.cons_append, tokenize_symbol_cons, ih]
    cases tokenize t <;> rfl

theorem tokenize_of_ofText? {t : Text} {l : Literal} (h : Literal.ofText? t = some l) :
    ∃ (signs : List Operator) (x : Binary64), (∀ op ∈ signs, op.IsAdditive) ∧
      l.value = (if signs.count .subtract % 2 = 1 then x.neg else x) ∧
        tokenize t =
          if l.value.isFinite then .ok (signs.map .operator ++ [.number x]) else .error .overflow := by
  obtain ⟨signs, body, hsigns, hbody, rfl, hvalue⟩ := Literal.exists_signs_of_ofText? h
  refine ⟨signs, Literal.unsigned body, hsigns, hvalue, ?_⟩
  have hfinite : l.value.isFinite = (Literal.unsigned body).isFinite := by
    rw [hvalue]
    split
    next => exact Binary64.isFinite_neg _
    next => rfl
  have hread := literal?_of_ofText? (Literal.ofText?_of_isUnsigned hbody)
  rw [tokenize_signs_append, tokenize_eq_mapM, lexemes_of_isUnsigned hbody, List.mapM_cons, Lexeme.token, hread,
    hfinite]
  unfold Literal.unsigned
  by_cases hx : (Literal.mk false (Literal.unsignedValue body)).value.isFinite = true
  · simp only [if_pos hx]
    rfl
  · simp only [if_neg hx]
    rfl

theorem tokenize_of_literal? {t : Text} {x : Binary64} (h : literal? t = .ok (some x)) :
    ∃ (signs : List Operator) (y : Binary64), (∀ op ∈ signs, op.IsAdditive) ∧
      tokenize t = .ok (signs.map .operator ++ [.number y]) := by
  obtain ⟨l, hl, rfl, hfinite⟩ := literal?_eq_ok_some_iff.1 h
  obtain ⟨signs, y, hsigns, -, htokens⟩ := tokenize_of_ofText? hl
  rw [if_pos hfinite] at htokens
  exact ⟨signs, y, hsigns, htokens⟩

end DeskCalculator
