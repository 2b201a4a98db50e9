import DeskCalculator.Proofs.Token.Munch

/-!
# The tokens of a text

What a lexeme stands for is settled by its characters (`Lexeme.Stands`), and so is what is wrong with
one that stands for nothing (`Lexeme.complaint`). With the pieces of a text this is all that
`tokenize` does (`tokenize_munch`): the tokens are what the lexemes stand for, or the error is the
complaint about the first lexeme that stands for nothing.

The readings of `nextToken` go on in the text, be it behind a token or after an error (`Readings`).
Each leaves an end of what was left before, a shorter one if it gives a token.
-/

namespace DeskCalculator

open Literal (isNumeral)

/-! ## What a lexeme stands for -/

namespace Lexeme

/-- The tokens that lexemes stand for: numerals with a digit and a finite value, the word for the root,
operators and parentheses. -/
inductive Stands : Lexeme → Token → Prop
  | number {t : Text} : (∃ c ∈ t, c.isDigit = true) →
      (Literal.mk false (Literal.unsignedValue t)).value.isFinite = true →
        Stands (.numeral t) (.number (Literal.mk false (Literal.unsignedValue t)).value)
  | root : Stands (.word Token.rootWord) .root
  | operator (op : Operator) : Stands (.mark op.symbol) (.operator op)
  | opening : Stands (.mark '(') .opening
  | closing : Stands (.mark ')') .closing

/-- What is wrong with a lexeme that stands for no token. -/
def complaint : Lexeme → CalcError
  | numeral t => if t.any Char.isDigit then .overflow else .invalid (.malformedNumber t)
  | word t => .invalid (.unknownFunction t)
  | mark c => .invalid (.unexpectedCharacter c)

theorem literal?_of_numeral {t : Text} (h : (Piece.lexeme (.numeral t)).WellFormed) :
    literal? t =
      if t.any Char.isDigit then
        if (Literal.mk false (Literal.unsignedValue t)).value.isFinite then
          .ok (some (Literal.mk false (Literal.unsignedValue t)).value)
        else .error .overflow
      else .ok none := by
  obtain ⟨-, hnumeral, hpoints⟩ := h
  by_cases hdigit : t.any Char.isDigit = true
  · have hunsigned : Literal.isUnsigned t = true := by
      simp only [Literal.isUnsigned, hdigit, Bool.and_eq_true, List.all_eq_true, decide_eq_true_eq]
      exact ⟨⟨hnumeral, trivial⟩, hpoints⟩
    rw [literal?, Literal.ofText?_of_isUnsigned hunsigned, if_pos hdigit]
  · rw [if_neg hdigit, literal?_eq_ok_none_iff]
    cases hread : Literal.ofText? t with
    | none => rfl
    | some l =>
      obtain ⟨body, hbody, -, ⟨rfl, -⟩ | ⟨rfl, -⟩ | ⟨rfl, -⟩⟩ := Literal.exists_of_ofText? hread
      · simp only [Literal.isUnsigned, Bool.and_eq_true] at hbody
        exact absurd hbody.1.2 hdigit
      · exact absurd (hnumeral '+' (by simp)) (by decide)
      · exact absurd (hnumeral '-' (by simp)) (by decide)

/-- A lexeme is the token that it stands for, or there is none and the complaint says why. -/
theorem token_cases {x : Lexeme} (h : (Piece.lexeme x).WellFormed) :
    (∃ token, x.token = .ok token ∧ x.Stands token) ∨
      x.token = .error x.complaint ∧ ∀ token, ¬ x.Stands token := by
  cases x with
  | numeral t =>
    rw [Lexeme.token, literal?_of_numeral h, complaint]
    by_cases hdigit : t.any Char.isDigit = true
    · by_cases hfinite : (Literal.mk false (Literal.unsignedValue t)).value.isFinite = true
      · rw [if_pos hdigit, if_pos hfinite]
        exact .inl ⟨_, rfl, .number (List.any_eq_true.1 hdigit) hfinite⟩
      · rw [if_pos hdigit, if_neg hfinite, if_pos hdigit]
        refine .inr ⟨rfl, ?_⟩
        rintro _ ⟨-, hvalue⟩
        exact hfinite hvalue
    · rw [if_neg hdigit, if_neg hdigit]
      refine .inr ⟨rfl, ?_⟩
      rintro _ ⟨hmem, -⟩
      exact hdigit (List.any_eq_true.2 hmem)
  | word t =>
    by_cases hroot : t = Token.rootWord
    · subst hroot
      exact .inl ⟨_, rfl, .root⟩
    · rw [Lexeme.token, if_neg hroot]
      refine .inr ⟨rfl, ?_⟩
      rintro _ ⟨⟩
      exact hroot rfl
  | mark c =>
    rw [Lexeme.token]
    by_cases hopening : c = '('
    · subst hopening
      exact .inl ⟨_, rfl, .opening⟩
    · by_cases hclosing : c = ')'
      · subst hclosing
        exact .inl ⟨_, rfl, .closing⟩
      · rw [if_neg hopening, if_neg hclosing]
        cases hop : Operator.ofSymbol? c with
        | some op =>
          obtain rfl := Operator.ofSymbol?_eq_some_iff.1 hop
          exact .inl ⟨_, rfl, .operator op⟩
        | none =>
          refine .inr ⟨rfl, ?_⟩
          rintro _ (_ | _ | op | _ | _)
          · rw [Operator.ofSymbol?_eq_some_iff.2 rfl] at hop
            cases hop
          · exact hopening rfl
          · exact hclosing rfl

theorem token_eq_ok_iff {x : Lexeme} (h : (Piece.lexeme x).WellFormed) {token : Token} :
    x.token = .ok token ↔ x.Stands token := by
  constructor
  · intro htoken
    rcases token_cases h with ⟨token', htoken', hstands⟩ | ⟨herror, -⟩
    · rw [htoken] at htoken'
      rwa [Except.ok.inj htoken']
    · rw [htoken] at herror
      cases herror
  · intro hstands
    cases hstands with
    | number hdigit hfinite =>
      rw [Lexeme.token, literal?_of_numeral h, if_pos (List.any_eq_true.2 hdigit), if_pos hfinite]
    | root => rfl
    | operator op => cases op <;> rfl
    | opening => rfl
    | closing => rfl

theorem token_eq_error_iff {x : Lexeme} (h : (Piece.lexeme x).WellFormed) {e : CalcError} :
    x.token = .error e ↔ (∀ token, ¬ x.Stands token) ∧ e = x.complaint := by
  rcases token_cases h with ⟨token, htoken, hstands⟩ | ⟨herror, hnone⟩
  · rw [htoken]
    constructor
    · nofun
    · exact fun hnone => absurd hstands (hnone.1 token)
  · rw [herror]
    constructor
    · intro he
      exact ⟨hnone, (Except.error.inj he).symm⟩
    · rintro ⟨-, rfl⟩
      rfl

end Lexeme

/-! ## All tokens -/

section

variable {α β : Type} {f : α → Outcome β}

theorem mapM_eq_ok_iff {xs : List α} {ys : List β} :
    xs.mapM f = .ok ys ↔ List.Forall₂ (fun x y => f x = .ok y) xs ys := by
  induction xs generalizing ys with
  | nil =>
    rw [List.forall₂_nil_left_iff]
    constructor
    · intro h
      exact (Except.ok.inj h).symm
    · rintro rfl
      rfl
  | cons x xs ih =>
    rw [mapM_cons_eq_ok_iff, List.forall₂_cons_left_iff]
    simp only [ih]

theorem mapM_eq_error_iff {xs : List α} {e : CalcError} :
    xs.mapM f = .error e ↔ ∃ front x rest, xs = front ++ x :: rest ∧
      (∀ y ∈ front, ∃ z, f y = .ok z) ∧ f x = .error e := by
  induction xs with
  | nil => simp [pure, Except.pure]
  | cons x xs ih =>
    rw [List.mapM_cons]
    cases hx : f x with
    | error e' =>
      constructor
      · intro h
        obtain rfl : e' = e := Except.error.inj h
        exact ⟨[], x, xs, rfl, by simp, hx⟩
      · rintro ⟨front, y, rest, hsum, hfront, hy⟩
        cases front with
        | nil =>
          obtain ⟨rfl, -⟩ := List.cons.inj hsum
          rw [hx] at hy
          exact congrArg Except.error (Except.error.inj hy)
        | cons z front =>
          obtain ⟨rfl, -⟩ := List.cons.inj hsum
          obtain ⟨w, hw⟩ := hfront x (by simp)
          rw [hx] at hw
          cases hw
    | ok z =>
      have hlater : (Except.ok z >>= fun y => xs.mapM f >>= fun ys => Except.ok (y :: ys)) =
          .error e ↔ xs.mapM f = .error e := by
        show (xs.mapM f >>= fun ys => Except.ok (z :: ys)) = .error e ↔ _
        cases xs.mapM f <;> simp [bind, Except.bind]
      refine hlater.trans (ih.trans ?_)
      constructor
      · rintro ⟨front, y, rest, rfl, hfront, hy⟩
        refine ⟨x :: front, y, rest, rfl, ?_, hy⟩
        intro w hw
        rcases List.mem_cons.1 hw with rfl | hw
        · exact ⟨z, hx⟩
        · exact hfront w hw
      · rintro ⟨front, y, rest, hsum, hfront, hy⟩
        cases front with
        | nil =>
          obtain ⟨rfl, -⟩ := List.cons.inj hsum
          rw [hx] at hy
          cases hy
        | cons w front =>
          obtain ⟨-, rfl⟩ := List.cons.inj hsum
          exact ⟨front, y, rest, rfl, fun v hv => hfront v (by simp [hv]), hy⟩

end

theorem Cuts.wellFormed {t : Text} {ps : List Piece} (h : Cuts t ps) {p : Piece} (hp : p ∈ ps) :
    p.WellFormed := by
  induction h with
  | nil => simp at hp
  | cons hlongest _ ih =>
    rcases List.mem_cons.1 hp with rfl | hp
    · exact hlongest.wellFormed
    · exact ih hp

section

variable {t : Text} {ps : List Piece} (h : Cuts t ps)

include h

theorem wellFormed_of_mem_filterMap {x : Lexeme} (hx : x ∈ ps.filterMap Piece.lexeme?) :
    (Piece.lexeme x).WellFormed := by
  obtain ⟨p, hp, hlexeme⟩ := List.mem_filterMap.1 hx
  cases p with
  | blanks => cases hlexeme
  | lexeme y =>
    obtain rfl := Option.some.inj hlexeme
    exact h.wellFormed hp

theorem tokenize_eq_ok_iff_of_cuts {ts : List Token} :
    tokenize t = .ok ts ↔ List.Forall₂ Lexeme.Stands (ps.filterMap Piece.lexeme?) ts := by
  rw [tokenize_eq_mapM, lexemes_of_cuts h, mapM_eq_ok_iff]
  have hwf := fun x => wellFormed_of_mem_filterMap h (x := x)
  generalize ps.filterMap Piece.lexeme? = xs at hwf
  induction xs generalizing ts with
  | nil => simp only [List.forall₂_nil_left_iff]
  | cons x xs ih =>
    have hrest := fun us => @ih us fun y hy => hwf y (by simp [hy])
    simp only [List.forall₂_cons_left_iff, hrest, Lexeme.token_eq_ok_iff (hwf x (by simp))]

theorem tokenize_eq_error_iff_of_cuts {e : CalcError} :
    tokenize t = .error e ↔ ∃ front x rest, ps.filterMap Piece.lexeme? = front ++ x :: rest ∧
      (∀ y ∈ front, ∃ token, y.Stands token) ∧ (∀ token, ¬ x.Stands token) ∧ e = x.complaint := by
  rw [tokenize_eq_mapM, lexemes_of_cuts h, mapM_eq_error_iff]
  refine exists_congr fun front => exists_congr fun x => exists_congr fun rest => ?_
  refine and_congr_right fun hsum => ?_
  have hwf {y : Lexeme} (hy : y ∈ front ++ x :: rest) : (Piece.lexeme y).WellFormed :=
    wellFormed_of_mem_filterMap h (hsum ▸ hy)
  refine and_congr ?_ (Lexeme.token_eq_error_iff (hwf (by simp)))
  refine forall_congr' fun y => forall_congr' fun hy => exists_congr fun token => ?_
  exact Lexeme.token_eq_ok_iff (hwf (by simp [hy]))

end

/-! ## Reading after reading -/

theorem nextToken_suffix (t : Text) : (nextToken t).2 <:+ t := by
  have htrim : Text.trimStart t <:+ t := List.dropWhile_suffix _
  unfold nextToken
  split
  next => exact List.nil_suffix
  next c u hu =>
    have hrest : (Lexeme.cut c u).2 <:+ t := by
      have hcut : (Lexeme.cut c u).2 <:+ c :: u := ⟨_, Lexeme.cut_append c u⟩
      rw [hu] at htrim
      exact hcut.trans htrim
    split
    next => exact hrest
    next =>
      split
      next => exact hu ▸ htrim
      next rest hcut => exact (congrArg Prod.snd hcut) ▸ hrest

/-- A reading ends the text exactly if only blanks are left. -/
theorem nextToken_eq_ok_none_iff {t : Text} : (nextToken t).1 = .ok none ↔ Text.IsBlanks t := by
  constructor
  · intro h
    cases htrim : Text.trimStart t with
    | nil => exact Text.trimStart_eq_nil htrim
    | cons c u =>
      cases htoken : (Lexeme.cut c u).1.token with
      | ok token => simp [nextToken_of_token_eq_ok htrim htoken] at h
      | error e => simp [nextToken_of_token_eq_error htrim htoken] at h
  · intro h
    have htrim := Text.trimStart_append_of_isBlanks h []
    rw [List.append_nil] at htrim
    rw [nextToken_of_trimStart_eq_nil htrim]

namespace Readings

/-- What is left of a text after a number of readings, whatever they come to. -/
def rest (t : Text) : Nat → Text
  | 0 => t
  | n + 1 => (nextToken (rest t n)).2

/-- The offset at which the next reading starts. -/
def position (t : Text) (n : Nat) : Nat := Text.byteLength t - Text.byteLength (rest t n)

theorem rest_succ_suffix (t : Text) (n : Nat) : rest t (n + 1) <:+ rest t n :=
  nextToken_suffix (rest t n)

theorem rest_suffix (t : Text) (n : Nat) : rest t n <:+ t := by
  induction n with
  | zero => exact List.suffix_refl t
  | succ n ih => exact (rest_succ_suffix t n).trans ih

theorem exists_read (t : Text) (n : Nat) :
    ∃ read, t = read ++ rest t n ∧ Text.byteLength read = position t n := by
  obtain ⟨read, hread⟩ := rest_suffix t n
  have hlength := congrArg Text.byteLength hread
  rw [Text.byteLength_append] at hlength
  refine ⟨read, hread.symm, ?_⟩
  unfold position
  omega

theorem position_add (t : Text) (n : Nat) :
    position t n + Text.byteLength (rest t n) = Text.byteLength t := by
  obtain ⟨read, hread, hposition⟩ := exists_read t n
  rw [← hposition, ← Text.byteLength_append, ← hread]

theorem position_le_succ (t : Text) (n : Nat) : position t n ≤ position t (n + 1) := by
  obtain ⟨read, hread⟩ := rest_succ_suffix t n
  have hlength := congrArg Text.byteLength hread
  have hbefore := position_add t n
  have hbehind := position_add t (n + 1)
  rw [Text.byteLength_append] at hlength
  omega

theorem position_lt_succ {t : Text} {n : Nat} {token : Token}
    (h : (nextToken (rest t n)).1 = .ok (some token)) : position t n < position t (n + 1) := by
  have hshorter : (rest t (n + 1)).length < (rest t n).length :=
    length_nextToken_lt (Prod.ext h rfl)
  obtain ⟨read, hread⟩ := rest_succ_suffix t n
  have hne : read ≠ [] := by
    rintro rfl
    rw [← hread, List.nil_append] at hshorter
    exact Nat.lt_irrefl _ hshorter
  have hpos := Text.byteLength_pos hne
  have hlength := congrArg Text.byteLength hread
  have hbefore := position_add t n
  have hbehind := position_add t (n + 1)
  rw [Text.byteLength_append] at hlength
  omega

end Readings

/-- **The tokens of a text are those of its maximal munch.** A text is cut into its longest pieces in
one way, in which each character stands once. The lexemes among them have to stand for tokens, and
the tokens are those; else the error is about the first lexeme that stands for none. However many
readings there were, they stopped between two characters, the next goes on from there and not
before, it passes every token, and it says that nothing is left only where no lexeme is. -/
theorem tokenize_munch (t : Text) :
    (∃! ps, Cuts t ps) ∧
      (∀ ps, Cuts t ps → ps.flatMap Piece.text = t ∧
        (∀ ts, tokenize t = .ok ts ↔
          List.Forall₂ Lexeme.Stands (ps.filterMap Piece.lexeme?) ts) ∧
        ∀ e, tokenize t = .error e ↔
          ∃ front x rest, ps.filterMap Piece.lexeme? = front ++ x :: rest ∧
            (∀ y ∈ front, ∃ token, y.Stands token) ∧ (∀ token, ¬ x.Stands token) ∧
              e = x.complaint) ∧
      ∀ n, (∃ read, t = read ++ Readings.rest t n ∧
          Text.byteLength read = Readings.position t n) ∧
        Readings.position t n ≤ Readings.position t (n + 1) ∧
        (∀ token, (nextToken (Readings.rest t n)).1 = .ok (some token) →
          Readings.position t n < Readings.position t (n + 1)) ∧
        ((nextToken (Readings.rest t n)).1 = .ok none ↔ Text.IsBlanks (Readings.rest t n)) := by
  refine ⟨existsUnique_cuts t, fun ps hps => ⟨hps.flatMap_text, ?_, ?_⟩, fun n => ⟨?_, ?_, ?_, ?_⟩⟩
  · exact fun ts => tokenize_eq_ok_iff_of_cuts hps
  · exact fun e => tokenize_eq_error_iff_of_cuts hps
  · exact Readings.exists_read t n
  · exact Readings.position_le_succ t n
  · exact fun token htoken => Readings.position_lt_succ htoken
  · exact nextToken_eq_ok_none_iff

end DeskCalculator
