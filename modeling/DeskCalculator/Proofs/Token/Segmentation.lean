import DeskCalculator.Proofs.Outcome
import DeskCalculator.Proofs.Text.Trimming
import DeskCalculator.Token.Lexer

/-!
# The lexemes of a text

`lexemes` cuts a text into all its lexemes, whether they are tokens or not, and `tokenize` makes each
of them a token (`tokenize_eq_mapM`). Two texts that are put together keep their lexemes unless a
run of digits and points, or of letters, goes on across the border (`lexemes_append`); so the tokens of
a text are those of its pieces (`tokenize_append_eq_ok_iff`).
-/

namespace DeskCalculator

open Literal (isNumeral)

/-- The lexemes of a text. -/
def lexemes (t : Text) : List Lexeme :=
  match _h : Text.trimStart t with
  | [] => []
  | c :: u => (Lexeme.cut c u).1 :: lexemes (Lexeme.cut c u).2
termination_by t.length
decreasing_by
  have htrim := (Text.trimStart_sublist t).length_le
  have hcut := Lexeme.length_cut_lt c u
  rw [_h] at htrim
  omega

theorem lexemes_of_trimStart_eq_nil {t : Text} (h : Text.trimStart t = []) : lexemes t = [] := by
  rw [lexemes]
  split
  next => rfl
  next hcons => simp [h] at hcons

theorem lexemes_of_trimStart_eq_cons {t u : Text} {c : Char} (h : Text.trimStart t = c :: u) :
    lexemes t = (Lexeme.cut c u).1 :: lexemes (Lexeme.cut c u).2 := by
  rw [lexemes]
  split
  next hnil => simp [h] at hnil
  next hcons =>
    rw [h] at hcons
    obtain ⟨rfl, rfl⟩ := List.cons.inj hcons
    rfl

@[simp] theorem lexemes_nil : lexemes [] = [] := lexemes_of_trimStart_eq_nil rfl

theorem nextToken_of_trimStart_eq_nil {t : Text} (h : Text.trimStart t = []) :
    nextToken t = (.ok none, []) := by
  rw [nextToken, h]

theorem nextToken_of_token_eq_ok {t u : Text} {c : Char} {token : Token}
    (h : Text.trimStart t = c :: u) (htoken : (Lexeme.cut c u).1.token = .ok token) :
    nextToken t = (.ok (some token), (Lexeme.cut c u).2) := by
  simp only [nextToken, h, htoken]

theorem nextToken_of_token_eq_error {t u : Text} {c : Char} {e : CalcError}
    (h : Text.trimStart t = c :: u) (htoken : (Lexeme.cut c u).1.token = .error e) :
    (nextToken t).1 = .error e := by
  simp only [nextToken, h, htoken]
  split <;> rfl

theorem tokenize_eq_mapM (t : Text) : tokenize t = (lexemes t).mapM Lexeme.token := by
  fun_induction lexemes t with
  | case1 t h =>
    have hnext := nextToken_of_trimStart_eq_nil h
    rw [tokenize]
    split
    next => rfl
    next hsome => simp [hnext] at hsome
    next herror => simp [hnext] at herror
  | case2 t c u h ih =>
    rw [List.mapM_cons, ← ih, tokenize]
    cases htoken : (Lexeme.cut c u).1.token with
    | error e =>
      have hnext := nextToken_of_token_eq_error h htoken
      split
      next hnone => simp [hnone] at hnext
      next hsome => simp [hsome] at hnext
      next e' _ herror =>
        rw [herror] at hnext
        exact congrArg Except.error (Except.error.inj hnext)
    | ok token =>
      have hnext := nextToken_of_token_eq_ok h htoken
      split
      next hnone => simp [hnone] at hnext
      next token' rest hsome =>
        rw [hsome] at hnext
        simp only [Prod.mk.injEq, Except.ok.injEq, Option.some.injEq] at hnext
        rw [hnext.1, hnext.2]
        show _ = tokenize (Lexeme.cut c u).2 >>= fun ts => Except.ok (token :: ts)
        cases tokenize (Lexeme.cut c u).2 <;> rfl
      next herror => simp [herror] at hnext

/-! ## Texts put together -/

/-- No run of digits and points and no run of letters goes on from the end of one text into the
next. -/
def Apart (l r : Text) : Prop :=
  ∀ c ∈ l.getLast?, ∀ d ∈ r.head?,
    ¬ (isNumeral c = true ∧ isNumeral d = true) ∧ ¬ (c.isAlpha = true ∧ d.isAlpha = true)

theorem apart_nil_left (r : Text) : Apart [] r := nofun

theorem apart_nil_right (l : Text) : Apart l [] := nofun

/-- A character that belongs to no run. -/
def IsMark (c : Char) : Prop := isNumeral c = false ∧ c.isAlpha = false

instance (c : Char) : Decidable (IsMark c) := inferInstanceAs (Decidable (_ ∧ _))

theorem isMark_symbol (op : Operator) : IsMark op.symbol := by cases op <;> decide

theorem toNat_of_isAlpha {c : Char} (h : c.isAlpha = true) : 65 ≤ c.toNat ∧ c.toNat ≤ 122 := by
  have hranges : (decide (c.val ≥ 'A'.val ∧ c.val ≤ 'Z'.val) ||
      decide (c.val ≥ 'a'.val) && decide (c.val ≤ 'z'.val)) = true := h
  simp only [Bool.or_eq_true, Bool.and_eq_true, decide_eq_true_eq, ge_iff_le,
    UInt32.le_iff_toNat_le] at hranges
  have hval : c.val.toNat = c.toNat := rfl
  rw [hval] at hranges
  simp at hranges
  omega

theorem toNat_of_isNumeral {c : Char} (h : isNumeral c = true) : 46 ≤ c.toNat ∧ c.toNat ≤ 57 := by
  simp only [isNumeral, Bool.or_eq_true, beq_iff_eq] at h
  rcases h with h | rfl
  · have hdigit := Char.isDigit_iff_toNat.1 h
    simp at hdigit
    omega
  · decide

theorem not_isAlpha_of_isNumeral {c : Char} (h : isNumeral c = true) : c.isAlpha = false := by
  cases hc : c.isAlpha with
  | false => rfl
  | true =>
    have hletter := toNat_of_isAlpha hc
    have hnumeral := toNat_of_isNumeral h
    omega

theorem isMark_of_isBlank {c : Char} (h : Text.isBlank c = true) : IsMark c := by
  simp only [Text.isBlank, Text.blankRanges, List.any_cons, List.any_nil, Bool.or_false,
    Bool.or_eq_true, Bool.and_eq_true, decide_eq_true_eq] at h
  constructor
  · cases hc : isNumeral c with
    | false => rfl
    | true =>
      have := toNat_of_isNumeral hc
      omega
  · cases hc : c.isAlpha with
    | false => rfl
    | true =>
      have := toNat_of_isAlpha hc
      omega

theorem apart_cons_of_isMark (l : Text) {d : Char} (hd : IsMark d) (r : Text) :
    Apart l (d :: r) := by
  intro c _ d' hd'
  obtain rfl := Option.some.inj hd'
  simp [hd.1, hd.2]

theorem apart_of_getLast?_isMark {l : Text} (h : ∀ c ∈ l.getLast?, IsMark c) (r : Text) :
    Apart l r := by
  intro c hc d _
  simp [(h c hc).1, (h c hc).2]

theorem Apart.of_cons {c d : Char} {l r : Text} (h : Apart (c :: d :: l) r) : Apart (d :: l) r := by
  intro c' hc'
  exact h c' (by rwa [List.getLast?_cons_cons])

namespace Lexeme

theorem numeralRun_append_of_apart {u r : Text} {pointSeen : Bool} (h : Apart u r)
    (hnil : u = [] → ∀ d ∈ r.head?, isNumeral d = false) :
    numeralRun pointSeen (u ++ r) =
      ((numeralRun pointSeen u).1, (numeralRun pointSeen u).2 ++ r) := by
  induction u generalizing pointSeen with
  | nil =>
    cases r with
    | nil => rfl
    | cons d r =>
      have hd := hnil rfl d rfl
      simp only [isNumeral, Bool.or_eq_false_iff] at hd
      simp [numeralRun, hd.1, hd.2]
  | cons c u ih =>
    rw [List.cons_append, numeralRun, numeralRun]
    by_cases hc : (c.isDigit || (c == '.' && !pointSeen)) = true
    · have hnumeral : isNumeral c = true := by
        simp only [Bool.or_eq_true, Bool.and_eq_true] at hc
        simp only [isNumeral, Bool.or_eq_true]
        exact hc.imp_right And.left
      have hrest : Apart u r ∧ (u = [] → ∀ d ∈ r.head?, isNumeral d = false) := by
        cases u with
        | nil =>
          refine ⟨apart_nil_left r, fun _ d hd => ?_⟩
          have hnot := (h c rfl d hd).1
          simpa [hnumeral] using hnot
        | cons d u => exact ⟨h.of_cons, fun hnil => absurd hnil (List.cons_ne_nil d u)⟩
      rw [if_pos hc, if_pos hc, ih hrest.1 hrest.2]
    · rw [if_neg hc, if_neg hc]
      rfl

theorem alphaRun_append_of_apart {u r : Text} {c : Char} (hc : c.isAlpha = true)
    (h : Apart (c :: u) r) :
    (u ++ r).takeWhile Char.isAlpha = u.takeWhile Char.isAlpha ∧
      (u ++ r).dropWhile Char.isAlpha = u.dropWhile Char.isAlpha ++ r := by
  induction u generalizing c with
  | nil =>
    cases r with
    | nil => exact ⟨rfl, rfl⟩
    | cons d r =>
      have hnot := (h c rfl d rfl).2
      have hd : d.isAlpha = false := by simpa [hc] using hnot
      simp [hd]
  | cons d u ih =>
    cases hd : d.isAlpha with
    | false => simp [hd]
    | true => simpa [hd] using ih hd h.of_cons

theorem cut_append_of_apart {c : Char} {u r : Text} (h : Apart (c :: u) r) :
    cut c (u ++ r) = ((cut c u).1, (cut c u).2 ++ r) := by
  unfold cut
  split
  next hnumeral =>
    have hrun : numeralRun false (c :: u ++ r) = _ := numeralRun_append_of_apart h nofun
    rw [← List.cons_append, hrun]
  next =>
    split
    next halpha =>
      obtain ⟨htake, hdrop⟩ := alphaRun_append_of_apart halpha h
      rw [htake, hdrop]
    next => rfl

/-- What is cut off leaves the end of the text as it is. -/
theorem apart_cut {c : Char} {u r : Text} (h : Apart (c :: u) r) : Apart (cut c u).2 r := by
  have hsum := cut_append c u
  intro d hd
  refine h d ?_
  rw [← hsum, List.getLast?_append]
  simp_all

end Lexeme

theorem lexemes_append {l r : Text} (h : Apart l r) : lexemes (l ++ r) = lexemes l ++ lexemes r := by
  fun_induction lexemes l with
  | case1 l hl =>
    have hblanks := Text.trimStart_append_of_isBlanks (Text.trimStart_eq_nil hl) r
    rw [List.nil_append, lexemes.eq_def, lexemes.eq_def r, hblanks]
  | case2 l c u hl ih =>
    obtain ⟨blanks, hblanks, hsum⟩ := Text.eq_append_trimStart l
    rw [hl] at hsum
    have hcut : Apart (c :: u) r := by
      intro d hd
      refine h d ?_
      rw [hsum, List.getLast?_append]
      simp_all
    have htrim : Text.trimStart (l ++ r) = c :: (u ++ r) := by
      rw [hsum, List.append_assoc, Text.trimStart_append_of_isBlanks hblanks, ← List.cons_append,
        Text.trimStart_of_head?]
      intro d hd
      refine Text.isBlank_of_head?_trimStart (t := l) ?_
      rw [hl]
      exact hd
    rw [lexemes_of_trimStart_eq_cons htrim, Lexeme.cut_append_of_apart hcut]
    rw [ih (Lexeme.apart_cut hcut), List.cons_append]

theorem lexemes_of_isBlanks {t : Text} (h : Text.IsBlanks t) : lexemes t = [] := by
  have hstart := Text.trimStart_append_of_isBlanks h []
  rw [List.append_nil] at hstart
  exact lexemes_of_trimStart_eq_nil hstart

theorem lexemes_blanks_append {l r : Text} (hl : Text.IsBlanks l) (hr : Text.IsBlanks r) (t : Text) :
    lexemes (l ++ t ++ r) = lexemes t := by
  have hright : Apart (l ++ t) r := by
    cases r with
    | nil => exact apart_nil_right _
    | cons d r => exact apart_cons_of_isMark _ (isMark_of_isBlank (hr d (by simp))) r
  have hleft : Apart l t :=
    apart_of_getLast?_isMark (fun c hc => isMark_of_isBlank (hl c (List.mem_of_getLast? hc))) t
  rw [lexemes_append hright, lexemes_append hleft, lexemes_of_isBlanks hl, lexemes_of_isBlanks hr,
    List.nil_append, List.append_nil]

theorem lexemes_trim (t : Text) : lexemes (Text.trim t) = lexemes t := by
  obtain ⟨l, r, hl, hr, hsum⟩ := Text.eq_append_trim_append t
  conv => rhs; rw [hsum]
  exact (lexemes_blanks_append hl hr _).symm

theorem lexemes_trimEnd (t : Text) : lexemes (Text.trimEnd t) = lexemes t := by
  obtain ⟨blanks, hblanks, hsum⟩ := Text.eq_trimEnd_append t
  conv => rhs; rw [hsum]
  have h := lexemes_blanks_append Text.isBlanks_nil hblanks (Text.trimEnd t)
  rw [List.nil_append] at h
  exact h.symm

theorem lexemes_cons_of_isMark {c : Char} (hblank : Text.isBlank c = false) (hmark : IsMark c)
    (t : Text) : lexemes (c :: t) = .mark c :: lexemes t := by
  have htrim : Text.trimStart (c :: t) = c :: t := Text.trimStart_of_head? (by simpa using hblank)
  rw [lexemes_of_trimStart_eq_cons htrim]
  simp [Lexeme.cut, hmark.1, hmark.2]

/-! ## Tokens of texts put together -/

theorem tokenize_append_eq_ok_iff {l r : Text} (h : Apart l r) {ws : List Token} :
    tokenize (l ++ r) = .ok ws ↔
      ∃ us vs, tokenize l = .ok us ∧ tokenize r = .ok vs ∧ ws = us ++ vs := by
  simp only [tokenize_eq_mapM, lexemes_append h]
  exact mapM_append_eq_ok_iff

theorem tokenize_blanks_append {l r : Text} (hl : Text.IsBlanks l) (hr : Text.IsBlanks r) (t : Text) :
    tokenize (l ++ t ++ r) = tokenize t := by
  rw [tokenize_eq_mapM, tokenize_eq_mapM, lexemes_blanks_append hl hr]

theorem tokenize_trim (t : Text) : tokenize (Text.trim t) = tokenize t := by
  rw [tokenize_eq_mapM, tokenize_eq_mapM, lexemes_trim]

theorem tokenize_trimEnd (t : Text) : tokenize (Text.trimEnd t) = tokenize t := by
  rw [tokenize_eq_mapM, tokenize_eq_mapM, lexemes_trimEnd]

@[simp] theorem tokenize_nil : tokenize [] = .ok [] := by
  rw [tokenize_eq_mapM, lexemes_nil]
  rfl

theorem tokenize_cons_of_isMark {c : Char} (hblank : Text.isBlank c = false) (hmark : IsMark c)
    {token : Token} (htoken : (Lexeme.mark c).token = .ok token) (t : Text) :
    tokenize (c :: t) = (tokenize t).map (token :: ·) := by
  rw [tokenize_eq_mapM, tokenize_eq_mapM, lexemes_cons_of_isMark hblank hmark, List.mapM_cons, htoken]
  show ((lexemes t).mapM Lexeme.token >>= fun ts => Except.ok (token :: ts)) = _
  cases (lexemes t).mapM Lexeme.token <;> rfl

theorem tokenize_symbol_cons (op : Operator) (t : Text) :
    tokenize (op.symbol :: t) = (tokenize t).map (.operator op :: ·) := by
  refine tokenize_cons_of_isMark ?_ (isMark_symbol op) ?_ t
  · cases op <;> decide
  · cases op <;> decide

theorem tokenize_opening_cons (t : Text) :
    tokenize ('(' :: t) = (tokenize t).map (.opening :: ·) :=
  tokenize_cons_of_isMark (by decide) (by decide) (by decide) t

theorem tokenize_closing_cons (t : Text) :
    tokenize (')' :: t) = (tokenize t).map (.closing :: ·) :=
  tokenize_cons_of_isMark (by decide) (by decide) (by decide) t

end DeskCalculator
