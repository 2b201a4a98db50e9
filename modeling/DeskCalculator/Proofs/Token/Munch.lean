import DeskCalculator.Proofs.Token.Inventory
import Mathlib.Data.List.Forall2
import Mathlib.Logic.ExistsUnique

/-!
# Maximal munch

A text is cut into pieces: runs of blanks, and lexemes (`Piece`). Each piece is the longest one that
the text goes on with (`Piece.IsLongest`), so that there is one way to cut a text and no more
(`existsUnique_cuts`). The lexemes among the pieces are those that the tokens are made of
(`lexemes_of_cuts`).
-/

namespace DeskCalculator

open Literal (isNumeral)

/-- A piece of a text. -/
inductive Piece where
  /-- A run of blanks. -/
  | blanks (text : Text)
  | lexeme (x : Lexeme)
  deriving DecidableEq

namespace Piece

/-- The characters of a piece. -/
def text : Piece → Text
  | blanks t => t
  | lexeme x => x.text

/-- The lexeme that a piece is, unless it is a run of blanks. -/
def lexeme? : Piece → Option Lexeme
  | blanks _ => none
  | lexeme x => some x

/-- The characters are those of the kind: blanks, digits with at most one point, ASCII letters, or one
character of any other sort. -/
def WellFormed : Piece → Prop
  | blanks t => t ≠ [] ∧ Text.IsBlanks t
  | lexeme (.numeral t) => t ≠ [] ∧ (∀ c ∈ t, isNumeral c = true) ∧ t.count '.' ≤ 1
  | lexeme (.word t) => t ≠ [] ∧ ∀ c ∈ t, c.isAlpha = true
  | lexeme (.mark c) => IsMark c ∧ Text.isBlank c = false

/-- The text starts with the piece and with no longer one. -/
structure IsLongest (p : Piece) (t : Text) : Prop where
  wellFormed : p.WellFormed
  isPrefix : p.text <+: t
  longest : ∀ q : Piece, q.WellFormed → q.text <+: t → q.text.length ≤ p.text.length

/-! ## The first character tells the kind -/

theorem not_isBlank_of_isNumeral {c : Char} (h : isNumeral c = true) : Text.isBlank c = false := by
  rw [Bool.eq_false_iff]
  intro hblank
  rw [(isMark_of_isBlank hblank).1] at h
  cases h

theorem not_isBlank_of_isAlpha {c : Char} (h : c.isAlpha = true) : Text.isBlank c = false := by
  rw [Bool.eq_false_iff]
  intro hblank
  rw [(isMark_of_isBlank hblank).2] at h
  cases h

theorem not_isNumeral_of_isAlpha {c : Char} (h : c.isAlpha = true) : isNumeral c = false := by
  rw [Bool.eq_false_iff]
  intro hnumeral
  rw [not_isAlpha_of_isNumeral hnumeral] at h
  cases h

/-- The piece of a text that is one piece. -/
def ofText : Text → Piece
  | [] => blanks []
  | c :: t =>
    if Text.isBlank c then blanks (c :: t)
    else if isNumeral c then lexeme (.numeral (c :: t))
    else if c.isAlpha then lexeme (.word (c :: t))
    else lexeme (.mark c)

theorem ofText_text {p : Piece} (h : p.WellFormed) : ofText p.text = p := by
  cases p with
  | blanks t =>
    obtain ⟨hne, hblanks⟩ := h
    obtain ⟨c, t, rfl⟩ := List.exists_cons_of_ne_nil hne
    simp [ofText, text, hblanks c (by simp)]
  | lexeme x =>
    cases x with
    | numeral t =>
      obtain ⟨hne, hnumeral, -⟩ := h
      obtain ⟨c, t, rfl⟩ := List.exists_cons_of_ne_nil hne
      have hc := hnumeral c (by simp)
      simp [ofText, text, Lexeme.text, not_isBlank_of_isNumeral hc, hc]
    | word t =>
      obtain ⟨hne, halpha⟩ := h
      obtain ⟨c, t, rfl⟩ := List.exists_cons_of_ne_nil hne
      have hc := halpha c (by simp)
      simp [ofText, text, Lexeme.text, not_isBlank_of_isAlpha hc, not_isNumeral_of_isAlpha hc, hc]
    | mark c =>
      obtain ⟨hmark, hblank⟩ := h
      simp [ofText, text, Lexeme.text, hblank, hmark.1, hmark.2]

theorem text_ne_nil {p : Piece} (h : p.WellFormed) : p.text ≠ [] := by
  cases p with
  | blanks t => exact h.1
  | lexeme x =>
    cases x with
    | numeral t => exact h.1
    | word t => exact h.1
    | mark c => simp [text, Lexeme.text]

theorem IsLongest.unique {p q : Piece} {t : Text} (hp : p.IsLongest t) (hq : q.IsLongest t) :
    p = q := by
  have hlength : p.text.length = q.text.length :=
    Nat.le_antisymm (hq.longest p hp.wellFormed hp.isPrefix) (hp.longest q hq.wellFormed hq.isPrefix)
  have htext : p.text = q.text :=
    (List.prefix_of_prefix_length_le hp.isPrefix hq.isPrefix (Nat.le_of_eq hlength)).eq_of_length hlength
  rw [← ofText_text hp.wellFormed, htext, ofText_text hq.wellFormed]

/-! ## The longest pieces -/

theorem length_le_takeWhile {p : Char → Bool} {u t : Text} (h : u <+: t) (hu : ∀ c ∈ u, p c = true) :
    u.length ≤ (t.takeWhile p).length := by
  obtain ⟨r, rfl⟩ := h
  rw [List.takeWhile_append_of_pos hu, List.length_append]
  omega

theorem length_le_numeralRun {pointSeen : Bool} {u t : Text} (h : u <+: t)
    (hu : ∀ c ∈ u, isNumeral c = true) (hpoints : u.count '.' ≤ if pointSeen then 0 else 1) :
    u.length ≤ (Lexeme.numeralRun pointSeen t).1.length := by
  obtain ⟨r, rfl⟩ := h
  induction u generalizing pointSeen with
  | nil => exact Nat.zero_le _
  | cons c u ih =>
    have hc := hu c (by simp)
    simp only [isNumeral, Bool.or_eq_true, beq_iff_eq] at hc
    rw [List.count_cons] at hpoints
    have hgoes : (c.isDigit || (c == '.' && !pointSeen)) = true := by
      rcases hc with hdigit | rfl
      · simp [hdigit]
      · cases pointSeen with
        | false => decide
        | true => simp at hpoints
    have hrest : u.count '.' ≤ if pointSeen || c == '.' then 0 else 1 := by
      cases pointSeen <;> by_cases hpoint : c = '.' <;> simp_all
    rw [List.cons_append, Lexeme.numeralRun, if_pos hgoes]
    have hlength := ih (fun d hd => hu d (by simp [hd])) hrest
    simp only [List.length_cons]
    omega

theorem count_numeralRun_le (pointSeen : Bool) (t : Text) :
    (Lexeme.numeralRun pointSeen t).1.count '.' ≤ if pointSeen then 0 else 1 := by
  induction t generalizing pointSeen with
  | nil => simp [Lexeme.numeralRun]
  | cons c t ih =>
    rw [Lexeme.numeralRun]
    split
    next hgoes =>
      have hrest := ih (pointSeen || c == '.')
      cases pointSeen <;> by_cases hpoint : c = '.' <;> simp_all
    next => simp

theorem isLongest_cut {c : Char} (hblank : Text.isBlank c = false) (t : Text) :
    (lexeme (Lexeme.cut c t).1).IsLongest (c :: t) := by
  have hpre : (lexeme (Lexeme.cut c t).1).text <+: c :: t := ⟨_, Lexeme.cut_append c t⟩
  -- another piece has the same first character, hence the same kind
  have hother {q : Piece} (hq : q.WellFormed) (hpre : q.text <+: c :: t) :
      ∃ u, q.text = c :: u ∧ q = ofText (c :: u) := by
    obtain ⟨d, u, hu⟩ := List.exists_cons_of_ne_nil (text_ne_nil hq)
    obtain ⟨r, hr⟩ := hpre
    rw [hu] at hr
    obtain rfl := (List.cons.inj hr).1
    exact ⟨u, hu, by rw [← hu, ofText_text hq]⟩
  by_cases hnumeral : isNumeral c = true
  · have hcut : (Lexeme.cut c t).1 = .numeral (Lexeme.numeralRun false (c :: t)).1 := by
      rw [Lexeme.cut, if_pos hnumeral]
    rw [hcut] at hpre ⊢
    refine ⟨⟨?_, fun d hd => Lexeme.isNumeral_of_mem_numeralRun hd, ?_⟩, hpre, fun q hq hqpre => ?_⟩
    · have hone : [c] <+: c :: t := ⟨t, rfl⟩
      have hlength : [c].length ≤ (Lexeme.numeralRun false (c :: t)).1.length :=
        length_le_numeralRun hone (by simpa using hnumeral)
          (Nat.le_trans List.count_le_length (Nat.le_refl 1))
      exact List.ne_nil_of_length_pos hlength
    · exact count_numeralRun_le false _
    · obtain ⟨u, hu, hofText⟩ := hother hq hqpre
      rw [ofText, if_neg (by simp [hblank]), if_pos hnumeral] at hofText
      subst hofText
      exact length_le_numeralRun hqpre hq.2.1 hq.2.2
  · by_cases halpha : c.isAlpha = true
    · have hcut : (Lexeme.cut c t).1 = .word ((c :: t).takeWhile Char.isAlpha) := by
        rw [Lexeme.cut, if_neg hnumeral, if_pos halpha, List.takeWhile_cons, if_pos halpha]
      rw [hcut] at hpre ⊢
      refine ⟨⟨by simp [halpha], fun d hd => List.all_eq_true.1 List.all_takeWhile d hd⟩, hpre,
        fun q hq hqpre => ?_⟩
      obtain ⟨u, hu, hofText⟩ := hother hq hqpre
      rw [ofText, if_neg (by simp [hblank]), if_neg hnumeral, if_pos halpha] at hofText
      subst hofText
      exact length_le_takeWhile hqpre hq.2
    · have hcut : (Lexeme.cut c t).1 = .mark c := by
        rw [Lexeme.cut, if_neg hnumeral, if_neg halpha]
      rw [hcut] at hpre ⊢
      refine ⟨⟨⟨by simpa using hnumeral, by simpa using halpha⟩, hblank⟩, hpre, fun q hq hqpre => ?_⟩
      obtain ⟨u, hu, hofText⟩ := hother hq hqpre
      rw [ofText, if_neg (by simp [hblank]), if_neg hnumeral, if_neg halpha] at hofText
      subst hofText
      exact Nat.le_refl _

theorem isLongest_blanks {c : Char} (hblank : Text.isBlank c = true) (t : Text) :
    (blanks ((c :: t).takeWhile Text.isBlank)).IsLongest (c :: t) := by
  refine ⟨⟨by simp [hblank], fun d hd => List.all_eq_true.1 List.all_takeWhile d hd⟩,
    List.takeWhile_prefix _, fun q hq hqpre => ?_⟩
  obtain ⟨d, u, hu⟩ := List.exists_cons_of_ne_nil (text_ne_nil hq)
  have hofText := ofText_text hq
  obtain rfl : d = c := by
    obtain ⟨r, hr⟩ := hqpre
    rw [hu] at hr
    exact (List.cons.inj hr).1
  rw [hu, ofText, if_pos hblank] at hofText
  subst hofText
  exact length_le_takeWhile hqpre hq.2

theorem exists_isLongest {t : Text} (h : t ≠ []) : ∃ p : Piece, p.IsLongest t := by
  obtain ⟨c, t, rfl⟩ := List.exists_cons_of_ne_nil h
  cases hblank : Text.isBlank c with
  | true => exact ⟨_, isLongest_blanks hblank t⟩
  | false => exact ⟨_, isLongest_cut hblank t⟩

end Piece

/-! ## Cutting a text -/

/-- The pieces of a text, each of them the longest that the rest of the text starts with. -/
inductive Cuts : Text → List Piece → Prop
  | nil : Cuts [] []
  | cons {p : Piece} {rest : Text} {ps : List Piece} :
      p.IsLongest (p.text ++ rest) → Cuts rest ps → Cuts (p.text ++ rest) (p :: ps)

namespace Cuts

/-- No character is lost or used twice. -/
theorem flatMap_text {t : Text} {ps : List Piece} (h : Cuts t ps) : ps.flatMap Piece.text = t := by
  induction h with
  | nil => rfl
  | cons _ _ ih => rw [List.flatMap_cons, ih]

theorem exists_cuts (t : Text) : ∃ ps, Cuts t ps := by
  induction hn : t.length using Nat.strongRecOn generalizing t with
  | ind n ih =>
    by_cases hne : t = []
    · exact ⟨[], hne ▸ .nil⟩
    · obtain ⟨p, hp⟩ := Piece.exists_isLongest hne
      obtain ⟨rest, rfl⟩ := hp.isPrefix
      have hpos := List.length_pos_of_ne_nil (Piece.text_ne_nil hp.wellFormed)
      rw [List.length_append] at hn
      obtain ⟨ps, hps⟩ := ih rest.length (by omega) rest rfl
      exact ⟨p :: ps, .cons hp hps⟩

theorem unique {t : Text} {ps qs : List Piece} (hp : Cuts t ps) (hq : Cuts t qs) : ps = qs := by
  induction hp generalizing qs with
  | nil =>
    generalize ht : ([] : Text) = t at hq
    cases hq with
    | nil => rfl
    | cons hlongest _ =>
      exact absurd (List.append_eq_nil_iff.1 ht.symm).1 (Piece.text_ne_nil hlongest.wellFormed)
  | @cons p rest ps hlongest _ ih =>
    generalize ht : p.text ++ rest = t at hq
    cases hq with
    | nil =>
      exact absurd (List.append_eq_nil_iff.1 ht).1 (Piece.text_ne_nil hlongest.wellFormed)
    | @cons q rest' qs hlongest' hqs =>
      rw [ht] at hlongest
      obtain rfl := hlongest.unique hlongest'
      obtain rfl := List.append_cancel_left ht
      rw [ih hqs]

end Cuts

/-- **A text is cut into its longest pieces in exactly one way.** -/
theorem existsUnique_cuts (t : Text) : ∃! ps, Cuts t ps := by
  obtain ⟨ps, hps⟩ := Cuts.exists_cuts t
  exact ⟨ps, hps, fun qs hqs => hqs.unique hps⟩

theorem lexemes_of_cuts {t : Text} {ps : List Piece} (h : Cuts t ps) :
    lexemes t = ps.filterMap Piece.lexeme? := by
  induction h with
  | nil => exact lexemes_nil
  | @cons p rest ps hlongest _ ih =>
    cases p with
    | blanks b =>
      have hblanks := lexemes_blanks_append hlongest.wellFormed.2 Text.isBlanks_nil rest
      rw [List.append_nil] at hblanks
      exact hblanks.trans ih
    | lexeme x =>
      obtain ⟨c, u, hu⟩ := List.exists_cons_of_ne_nil (Piece.text_ne_nil hlongest.wellFormed)
      have hblank : Text.isBlank c = false := by
        rw [Bool.eq_false_iff]
        intro hblank
        have hofText := Piece.ofText_text hlongest.wellFormed
        rw [hu, Piece.ofText, if_pos hblank] at hofText
        cases hofText
      rw [hu, List.cons_append] at hlongest ⊢
      have hcut := Piece.lexeme.inj ((Piece.isLongest_cut hblank (u ++ rest)).unique hlongest)
      have hrest : (Lexeme.cut c (u ++ rest)).2 = rest := by
        have hsum := Lexeme.cut_append c (u ++ rest)
        rw [hcut, ← List.cons_append, ← hu] at hsum
        exact List.append_cancel_left hsum
      have htrim : Text.trimStart (c :: (u ++ rest)) = c :: (u ++ rest) :=
        Text.trimStart_of_head? (by simpa using hblank)
      rw [lexemes_of_trimStart_eq_cons htrim, hcut, hrest, ih]
      rfl

end DeskCalculator
