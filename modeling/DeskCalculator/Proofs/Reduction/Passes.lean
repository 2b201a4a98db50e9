import DeskCalculator.Proofs.Reduction.Splice

/-!
# The passes of a reduction

A pass over a text answers or leaves another text, in which a literal has taken the place of a group
(`Reduction.answer_or_goesOn`). Each pass that goes on takes one opening parenthesis out of the text,
and there is none left where a value is answered. So a reduction ends after as many passes as the text
has opening parentheses, or before, and if it ends with a value, after just as many
(`reduction_progress`).

The pieces that a pass and a split read are cut out of a text at byte offsets. These offsets stand
between characters, whatever the characters are (`Text.IsSlice`).
-/

namespace DeskCalculator

/-! ## Slices -/

namespace Text

/-- The piece of a text between two byte offsets, both of which stand between characters. -/
def IsSlice (t : Text) (i j : Nat) (u : Text) : Prop :=
  ∃ l r, t = l ++ u ++ r ∧ byteLength l = i ∧ byteLength (l ++ u) = j

theorem isSlice_of_append {t l u r : Text} {i j : Nat} (h : t = l ++ u ++ r) (hi : byteLength l = i)
    (hj : i + byteLength u = j) : IsSlice t i j u :=
  ⟨l, r, h, hi, by rw [byteLength_append, hi, hj]⟩

end Text

open Text (IsSlice byteLength)

/-- The texts around and inside the parentheses at two offsets, and the front that ends before them. -/
structure Group.IsCutAt (g : Group) (t : Text) (p : Nat × Nat) : Prop where
  before : IsSlice t 0 p.1 g.before
  front : IsSlice t 0 (byteLength g.front.1) g.front.1
  inside : IsSlice t (p.1 + 1) p.2 g.inside
  after : IsSlice t (p.2 + 1) (byteLength t) g.after

theorem Group.front_prefix (g : Group) : g.front.1 <+: g.text := by
  have hbefore : g.front.1 <+: g.before := by
    rcases g.before_eq with h | ⟨-, h⟩
    · exact ⟨[], by rw [h, List.append_nil]⟩
    · obtain ⟨blanks, -, hblanks⟩ := Text.eq_trimEnd_append g.before
      rw [h, List.append_assoc] at hblanks
      exact ⟨_, hblanks.symm⟩
  exact hbefore.trans (List.prefix_append _ _)

theorem Group.isCutAt_pair (g : Group) : g.IsCutAt g.text g.pair := by
  have hopening : '('.utf8Size = 1 := rfl
  have hclosing : ')'.utf8Size = 1 := rfl
  obtain ⟨behind, hfront⟩ := g.front_prefix
  constructor
  case before => exact Text.isSlice_of_append (l := []) rfl rfl (Nat.zero_add _)
  case front => exact Text.isSlice_of_append (l := []) hfront.symm rfl (Nat.zero_add _)
  case inside =>
    exact Text.isSlice_of_append (l := g.before ++ ['(']) (r := ')' :: g.after) (by simp [text])
      (Text.byteLength_append _ _) rfl
  case after =>
    refine Text.isSlice_of_append (l := g.before ++ '(' :: g.inside ++ [')']) (r := []) ?_ ?_ ?_
    · simp [text]
    · simp only [pair, Text.byteLength_append, Text.byteLength_cons, Text.byteLength_nil]
      omega
    · simp only [pair, text, Text.byteLength_append, Text.byteLength_cons]
      omega

theorem Parens.exists_isCutAt {t : Text} {m : Parens} {p : Nat × Nat} (h : scan? t = some m)
    (hp : m.innermost? = some p) : ∃ g, Group.first? t = some g ∧ g.IsCutAt t p := by
  rw [innermost?_eq h] at hp
  obtain ⟨g, hg, rfl⟩ := Option.map_eq_some_iff.1 hp
  refine ⟨g, hg, ?_⟩
  rw [← Group.text_of_first? hg]
  exact g.isCutAt_pair

/-- A split is made at an operator, and what is split further are the shorter texts on its sides. -/
theorem Split.exists_sides {t text : Text} {op : Operator} {offset : Nat} {left right : Split}
    (h : ofText t = .node text op offset left right) :
    text = Text.trim t ∧ ∃ l r, left = ofText l ∧ right = ofText r ∧ text = l ++ op.symbol :: r ∧
      IsSlice text 0 offset l ∧ IsSlice text (offset + 1) (byteLength text) r ∧
      l.length < t.length ∧ r.length < t.length := by
  rw [ofText] at h
  split at h
  next => cases h
  next =>
    split at h
    next => cases h
    next => cases h
    next =>
      split at h
      next => cases h
      next cutOp l r hcut =>
        obtain ⟨rfl, rfl, rfl, rfl, rfl⟩ := Split.node.inj h
        have hparts := eq_append_of_cut? hcut
        have hone : cutOp.symbol.utf8Size = 1 := by cases cutOp <;> rfl
        have hlength := congrArg List.length hparts
        have htrim := Text.length_trim_le t
        simp only [List.length_append, List.length_cons] at hlength
        refine ⟨rfl, l, r, rfl, rfl, hparts, ?_, ?_, by omega, by omega⟩
        · exact Text.isSlice_of_append (l := []) hparts rfl (Nat.zero_add _)
        · refine Text.isSlice_of_append (l := l ++ [cutOp.symbol]) (r := []) ?_ ?_ ?_
          · simp [hparts]
          · simp only [Text.byteLength_append, Text.byteLength_cons, Text.byteLength_nil]
            omega
          · rw [hparts, Text.byteLength_append, Text.byteLength_cons]
            omega

/-! ## One pass -/

namespace Reduction

/-- What a pass answers, unless it goes on. -/
def answer? : Reduction → Option (Outcome Binary64)
  | done outcome => some outcome
  | flat split => some split.eval
  | stuck _ e => some (.error e)
  | step .. => none

/-- A pass over `u` that goes on with `v`, where the value `x` has taken the place of the group `g`. -/
structure GoesOn (g : Group) (x : Binary64) (u v : Text) : Prop where
  ofText_eq : ofText u = .step g v (ofText v)
  text_eq : g.text = u
  /-- The group is the innermost pair that the loop takes. -/
  innermost : ∃ m, Parens.scan? u = some m ∧ m.IsInnermost g.pair ∧ m.innermost? = some g.pair
  value_eq : g.value = .ok x
  replacement : Nonempty (Replacement g x v)
  balanced : Balanced u ∧ Balanced v
  count_eq : v.count '(' + 1 = u.count '('
  nesting_le : nesting v ≤ nesting u
  trimmed : Text.IsTrimmed v

variable {t u v : Text} {g : Group} {result : Text} {next : Reduction} {k : Nat}

theorem of_ofText_eq_step (h : ofText u = .step g result next) :
    (∃ m, Parens.scan? u = some m) ∧ Group.first? u = some g ∧ g.resolve = .ok result ∧
      next = ofText (Text.trim result) := by
  rw [ofText] at h
  split at h
  next => cases h
  next => cases h
  next =>
    split at h
    next => cases h
    next hscan =>
      split at h
      next => cases h
      next g' hfirst =>
        split at h
        next => cases h
        next result' hresolve =>
          obtain ⟨rfl, rfl, rfl⟩ := Reduction.step.inj h
          exact ⟨Option.ne_none_iff_exists'.1 (by simpa using hscan), hfirst, hresolve, rfl⟩

theorem exists_goesOn (htrim : Text.IsTrimmed u) (h : ofText u = .step g result next) :
    ∃ x, GoesOn g x u result := by
  obtain ⟨⟨m, hm⟩, hfirst, hresolve, rfl⟩ := of_ofText_eq_step h
  obtain ⟨x, hvalue, rfl⟩ := Group.resolve_eq_ok_iff.1 hresolve
  obtain rfl := Group.text_of_first? hfirst
  have hbalanced : Balanced g.text := Parens.isSome_scan?_iff.1 (Option.isSome_iff_exists.2 ⟨m, hm⟩)
  have hresult := Group.isTrimmed_splice hvalue htrim
  have hinnermost : m.innermost? = some g.pair := by
    rw [Parens.innermost?_eq hm, hfirst]
    rfl
  rw [Text.trim_of_isTrimmed hresult] at h
  exact ⟨x, {
    ofText_eq := h
    text_eq := rfl
    innermost := ⟨m, hm, (Parens.isInnermost_iff hm).2 ⟨g, rfl, rfl⟩, hinnermost⟩
    value_eq := hvalue
    replacement := Group.nonempty_replacement hvalue
    balanced := ⟨hbalanced, Group.balanced_splice_iff.2 hbalanced⟩
    count_eq := g.count_splice x
    nesting_le := g.nesting_splice_le x
    trimmed := hresult }⟩

theorem answer_or_goesOn (htrim : Text.IsTrimmed u) :
    (∃ o, (ofText u).answer? = some o) ∨ ∃ g x v, GoesOn g x u v := by
  cases h : ofText u with
  | done o => exact .inl ⟨o, rfl⟩
  | flat split => exact .inl ⟨split.eval, rfl⟩
  | stuck g e => exact .inl ⟨.error e, rfl⟩
  | step g result next =>
    obtain ⟨x, hx⟩ := exists_goesOn htrim h
    exact .inr ⟨g, x, result, hx⟩

theorem opening_not_mem_of_answer {x : Binary64} (h : (ofText u).answer? = some (.ok x)) :
    '(' ∉ u := by
  rw [ofText] at h
  split at h
  next => cases h
  next value hliteral =>
    intro hmem
    obtain ⟨l, hl, -⟩ := literal?_eq_ok_some_iff.1 hliteral
    rw [Literal.ofText?_of_mem hmem (by decide) (by decide) (by decide)] at hl
    cases hl
  next =>
    split at h
    next => cases h
    next hscan =>
      split at h
      next hfirst =>
        have hbalanced : Balanced u := Parens.isSome_scan?_iff.1 (by simpa [Option.isNone_iff_eq_none,
          Option.isSome_iff_ne_none] using hscan)
        exact ((Group.first?_eq_none_iff hbalanced).1 hfirst).1
      next =>
        split at h
        next => cases h
        next => cases h

/-! ## All passes -/

/-- Behind `k` passes that went on, the text is `u`. -/
inductive Reaches (t : Text) : Nat → Text → Prop
  | start : Reaches t 0 t
  | step {k : Nat} {u result : Text} {g : Group} {next : Reduction} : Reaches t k u →
      ofText u = .step g result next → Reaches t (k + 1) (Text.trim result)

namespace Reaches

theorem head (hstep : ofText t = .step g result next) (h : Reaches (Text.trim result) k u) :
    Reaches t (k + 1) u := by
  induction h with
  | start => exact .step .start hstep
  | step _ hnext ih => exact .step ih hnext

theorem isTrimmed (htrim : Text.IsTrimmed t) (h : Reaches t k u) : Text.IsTrimmed u := by
  cases h with
  | start => exact htrim
  | step => exact Text.isTrimmed_trim _

theorem unique (h : Reaches t k u) (h' : Reaches t k v) : u = v := by
  induction h generalizing v with
  | start =>
    cases h'
    rfl
  | step _ hstep ih =>
    cases h' with
    | step hbefore hstep' =>
      obtain rfl := ih hbefore
      rw [hstep] at hstep'
      rw [(Reduction.step.inj hstep').2.1]

theorem preserves (htrim : Text.IsTrimmed t) (h : Reaches t k u) :
    u.count '(' + k = t.count '(' ∧ (Balanced u ↔ Balanced t) ∧ nesting u ≤ nesting t := by
  induction h with
  | start => exact ⟨rfl, Iff.rfl, Nat.le_refl _⟩
  | step hbefore hstep ih =>
    obtain ⟨hcount, hbalanced, hnesting⟩ := ih
    obtain ⟨x, hx⟩ := exists_goesOn (hbefore.isTrimmed htrim) hstep
    rw [Text.trim_of_isTrimmed hx.trimmed]
    have hless := hx.count_eq
    refine ⟨by omega, ?_, Nat.le_trans hx.nesting_le hnesting⟩
    rw [← hbalanced]
    exact iff_of_true hx.balanced.2 hx.balanced.1

theorem le_of_answer {o : Outcome Binary64} (h : Reaches t k u) (ho : (ofText u).answer? = some o)
    {k' : Nat} {u' : Text} (h' : Reaches t k' u') : k' ≤ k := by
  induction h' with
  | start => exact Nat.zero_le _
  | step hbefore hstep ih =>
    refine Nat.lt_of_le_of_ne ih ?_
    rintro rfl
    obtain rfl := h.unique hbefore
    rw [hstep] at ho
    cases ho

theorem exists_answer (t : Text) :
    ∃ k u, Reaches t k u ∧ (ofText u).answer? = some (ofText t).eval := by
  have hanswer {t : Text} {r : Reduction} (hr : ofText t = r) (ho : r.answer? = some r.eval) :
      ∃ k u, Reaches t k u ∧ (ofText u).answer? = some r.eval :=
    ⟨0, t, .start, by rw [hr, ho]⟩
  induction h : t.count '(' using Nat.strongRecOn generalizing t with
  | ind n ih =>
    cases hr : ofText t with
    | done o => exact hanswer hr rfl
    | flat split => exact hanswer hr rfl
    | stuck g e => exact hanswer hr rfl
    | step g result next =>
      obtain ⟨-, hfirst, hresolve, rfl⟩ := of_ofText_eq_step hr
      obtain ⟨x, -, rfl⟩ := Group.resolve_eq_ok_iff.1 hresolve
      have hless := g.count_splice x
      have htrim := Text.count_trim_le '(' (g.splice x)
      rw [Group.text_of_first? hfirst, h] at hless
      obtain ⟨k, u, hreaches, hanswer⟩ := ih _ (by omega) (Text.trim (g.splice x)) rfl
      exact ⟨k + 1, u, hreaches.head hr, hanswer⟩

end Reaches

end Reduction

/-- **The loop of the legacy mode makes progress with each pass, and writes safely.** Behind `k` passes
the text has `k` opening parentheses less than at the start; it is balanced if the first text is, and
nested no deeper. A pass answers, or it replaces one innermost group by a literal (`GoesOn`). Some pass
answers, behind at most as many as the text has opening parentheses, and behind just as many if the
answer is a value; no pass comes behind it. The pieces that are read are cut out between characters,
and a split goes on with shorter texts. -/
theorem reduction_progress (t : Text) :
    (∀ k u, Reduction.Reaches (Text.trim t) k u →
        u.count '(' + k = t.count '(' ∧ (Balanced u ↔ Balanced t) ∧ nesting u ≤ nesting t ∧
        ((∃ o, (Reduction.ofText u).answer? = some o) ∨
          ∃ g x v, Reduction.GoesOn g x u v ∧ Reduction.Reaches (Text.trim t) (k + 1) v)) ∧
      (∃ k u, Reduction.Reaches (Text.trim t) k u ∧
        (Reduction.ofText u).answer? = some (Mode.legacy.evaluate t) ∧ k ≤ t.count '(' ∧
        (∀ x, Mode.legacy.evaluate t = .ok x → k = t.count '(') ∧
        ∀ k' u', Reduction.Reaches (Text.trim t) k' u' → k' ≤ k) ∧
      (∀ u m p, Parens.scan? u = some m → m.innermost? = some p →
        ∃ g, Group.first? u = some g ∧ g.IsCutAt u p) ∧
      ∀ u text op offset left right, Split.ofText u = .node text op offset left right →
        text = Text.trim u ∧ ∃ l r, left = Split.ofText l ∧ right = Split.ofText r ∧
          text = l ++ op.symbol :: r ∧ IsSlice text 0 offset l ∧
          IsSlice text (offset + 1) (byteLength text) r ∧ l.length < u.length ∧ r.length < u.length := by
  have htrim := Text.isTrimmed_trim t
  have hcount : (Text.trim t).count '(' = t.count '(' := by
    have hopening : isParen '(' = true := rfl
    rw [← List.count_filter hopening, filter_isParen_trim, List.count_filter hopening]
  have hnesting : nesting (Text.trim t) = nesting t := nesting_eq_of_filter_eq (filter_isParen_trim t)
  refine ⟨fun k u h => ?_, ?_, fun u m p hm hp => Parens.exists_isCutAt hm hp,
    fun u text op offset left right h => Split.exists_sides h⟩
  · obtain ⟨hless, hbalanced, hle⟩ := h.preserves htrim
    rw [hcount] at hless
    rw [hnesting] at hle
    rw [balanced_trim_iff] at hbalanced
    refine ⟨hless, hbalanced, hle, (Reduction.answer_or_goesOn (h.isTrimmed htrim)).imp_right ?_⟩
    rintro ⟨g, x, v, hx⟩
    refine ⟨g, x, v, hx, ?_⟩
    rw [← Text.trim_of_isTrimmed hx.trimmed]
    exact .step h hx.ofText_eq
  · obtain ⟨k, u, hreaches, hanswer⟩ := Reduction.Reaches.exists_answer (Text.trim t)
    obtain ⟨hless, -, -⟩ := hreaches.preserves htrim
    rw [hcount] at hless
    refine ⟨k, u, hreaches, hanswer, by omega, fun x hx => ?_, fun k' u' h' =>
      hreaches.le_of_answer hanswer h'⟩
    rw [show (Reduction.ofText (Text.trim t)).eval = .ok x from hx] at hanswer
    rw [List.count_eq_zero.2 (Reduction.opening_not_mem_of_answer hanswer)] at hless
    omega

end DeskCalculator
