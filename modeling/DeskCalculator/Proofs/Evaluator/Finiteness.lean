import DeskCalculator.Proofs.Evaluator.Checks
import DeskCalculator.Proofs.Expr.Reading
import DeskCalculator.Proofs.Reduction.Step

/-!
# Evaluations are finite

Every value of an evaluation is a finite number, and no operation on the way to it is invalid
(`evaluate_finite`). The operations have a finite result or an error, and on finite operands the
standard makes none of them invalid (`yields_apply`, `yields_squareRoot`); the division by zero and
the root of a number below zero, which would be, are turned away before. What remains is that all
operands are finite: the numbers of the tokens are, hence those of the parsed tree, and so are the
literals that a reduction reads, its own written values among them.

`Yields P o` is the postcondition that the steps pass on: a value of `o` satisfies `P`, and its error
is not that of an invalid operation.
-/

namespace DeskCalculator

/-- A value of the outcome has the property, and no operation was invalid. -/
structure Yields {α : Type} (P : α → Prop) (o : Outcome α) : Prop where
  value : ∀ x, o = .ok x → P x
  valid : o ≠ .error (.invalid .notANumber)

section

variable {α β : Type} {P : α → Prop} {Q : β → Prop}

theorem yields_ok {x : α} (h : P x) : Yields P (.ok x) where
  value := by
    rintro _ ⟨⟩
    exact h
  valid := nofun

theorem yields_error {e : CalcError} (h : e ≠ .invalid .notANumber) :
    Yields P (.error e : Outcome α) where
  value := nofun
  valid := fun he => h (Except.error.inj he)

theorem Yields.bind {o : Outcome α} {f : α → Outcome β} (h : Yields P o)
    (hf : ∀ x, P x → Yields Q (f x)) : Yields Q (o >>= f) := by
  cases o with
  | error e => exact ⟨nofun, fun he => h.valid (congrArg _ (Except.error.inj he))⟩
  | ok x => exact hf x (h.value x rfl)

theorem yields_mapM {f : α → Outcome β} (h : ∀ x, Yields Q (f x)) (xs : List α) :
    Yields (fun ys => ∀ y ∈ ys, Q y) (xs.mapM f) := by
  induction xs with
  | nil => exact yields_ok (by simp)
  | cons x xs ih =>
    rw [List.mapM_cons]
    refine (h x).bind fun y hy => ih.bind fun ys hys => yields_ok fun z hz => ?_
    rcases List.mem_cons.1 hz with rfl | hz
    · exact hy
    · exact hys z hz

end

/-- A finite number. -/
abbrev IsFinite (x : Binary64) : Prop := x.isFinite = true

/-! ## Operations -/

theorem yields_checked {x : Binary64} (h : x ≠ .nan) : Yields IsFinite (checked x) := by
  cases x with
  | nan => exact absurd rfl h
  | infinite => exact yields_error (by simp)
  | finite => exact yields_ok rfl

theorem yields_apply (op : Operator) {x y : Binary64} (hx : IsFinite x) (hy : IsFinite y) :
    Yields IsFinite (op.apply x y) := by
  cases op with
  | add => exact yields_checked (Binary64.add_ne_nan hx hy)
  | subtract => exact yields_checked (Binary64.sub_ne_nan hx hy)
  | multiply => exact yields_checked (Binary64.mul_ne_nan hx hy)
  | divide =>
    rw [Operator.apply]
    split
    next => exact yields_error (by simp)
    next hzero => exact yields_checked (Binary64.div_ne_nan hx hy (by simpa using hzero))

theorem yields_squareRoot {x : Binary64} (hx : IsFinite x) : Yields IsFinite (squareRoot x) := by
  rw [squareRoot]
  split
  next => exact yields_error (by simp)
  next hbelow => exact yields_checked (Binary64.sqrt_ne_nan hx (by simpa using hbelow))

theorem yields_literal? (t : Text) : Yields (fun x => ∀ y ∈ x, IsFinite y) (literal? t) where
  value := by
    rintro (_ | x) h
    · simp
    · intro y hy
      obtain rfl := Option.some.inj hy
      exact isFinite_of_literal? h
  valid := by
    unfold literal?
    split
    · nofun
    · split <;> nofun

/-! ## Parsed expressions -/

/-- The number of a token is finite, if it has one. -/
def Token.HasFiniteNumber (token : Token) : Prop := ∀ x, token = .number x → IsFinite x

/-- All numbers of an expression are finite. -/
def Expr.HasFiniteNumbers : Expr → Prop
  | number value => IsFinite value
  | negate operand | root operand => operand.HasFiniteNumbers
  | binary left _ right => left.HasFiniteNumbers ∧ right.HasFiniteNumbers

theorem yields_token (x : Lexeme) : Yields Token.HasFiniteNumber x.token := by
  cases x with
  | numeral t =>
    have hliteral := yields_literal? t
    rw [Lexeme.token]
    split
    next e h =>
      rw [h] at hliteral
      exact yields_error fun he => hliteral.valid (by rw [he])
    next => exact yields_error (by simp)
    next value h =>
      refine yields_ok fun x hx => ?_
      obtain rfl := Token.number.inj hx
      exact isFinite_of_literal? h
  | word t =>
    rw [Lexeme.token]
    split
    · exact yields_ok nofun
    · exact yields_error (by simp)
  | mark c =>
    rw [Lexeme.token]
    split
    · exact yields_ok nofun
    · split
      · exact yields_ok nofun
      · split
        · exact yields_ok nofun
        · exact yields_error (by simp)

theorem yields_tokenize (t : Text) :
    Yields (fun ts => ∀ token ∈ ts, token.HasFiniteNumber) (tokenize t) := by
  rw [tokenize_eq_mapM]
  exact yields_mapM yields_token _

theorem Derives.hasFiniteNumbers {stratum : Stratum} {ts : List Token} {e : Expr}
    (h : Derives stratum ts e) (hts : ∀ token ∈ ts, token.HasFiniteNumber) :
    e.HasFiniteNumbers := by
  induction h with
  | sum _ _ _ ihl ihr | product _ _ _ ihl ihr =>
    exact ⟨ihl fun token h => hts token (by simp [h]), ihr fun token h => hts token (by simp [h])⟩
  | ofProduct _ ih | ofSigned _ ih => exact ih hts
  | signed _ _ ih =>
    have hprimary := ih fun token h => hts token (by simp [h])
    rw [Expr.withSigns]
    split
    · exact hprimary
    · exact hprimary
  | number value => exact hts (.number value) (by simp) value rfl
  | group _ ih | root _ ih => exact ih fun token h => hts token (by simp [h])

theorem yields_parse (t : Text) : Yields Expr.HasFiniteNumbers (Expr.parse t) := by
  refine (yields_tokenize t).bind fun ts hts => ⟨fun e he => ?_, fun herror => ?_⟩
  · exact (ofTokens_eq_ok_iff_derives.1 he).hasFiniteNumbers hts
  · rcases ofTokens_eq_error herror with ⟨fault, hfault, heq⟩ | ⟨heq, -⟩
    · rwa [← CalcError.invalid.inj heq] at hfault
    · cases heq

theorem yields_eval {e : Expr} (he : e.HasFiniteNumbers) : Yields IsFinite e.eval := by
  induction e with
  | number value => exact yields_ok he
  | negate operand ih =>
    exact (ih he).bind fun x hx => yields_ok ((Binary64.isFinite_neg x).trans hx)
  | binary left op right ihl ihr =>
    exact (ihl he.1).bind fun x hx => (ihr he.2).bind fun y hy => yields_apply op hx hy
  | root operand ih => exact (ih he).bind fun x hx => yields_squareRoot hx

/-! ## Reductions -/

theorem yields_split (t : Text) : Yields IsFinite (Split.ofText t).eval := by
  fun_induction Split.ofText t with
  | case1 => exact yields_error (by simp)
  | case2 t _ e h =>
    refine yields_error fun he => (yields_literal? (Text.trim t)).valid ?_
    rw [h, he]
  | case3 t _ value h => exact yields_ok (isFinite_of_literal? h)
  | case4 => exact yields_error (by simp)
  | case5 t _ _ op left right _ ihl ihr =>
    exact ihl.bind fun x hx => ihr.bind fun y hy => yields_apply op hx hy

theorem yields_value (g : Group) : Yields IsFinite g.value := by
  have hcheck : Yields (fun _ => True) g.checkNeighbours := by
    unfold Group.checkNeighbours
    split
    · exact yields_error (by simp)
    · split
      · exact yields_error (by simp)
      · exact yields_ok trivial
  refine hcheck.bind fun _ _ => (yields_split g.inside).bind fun y hy => ?_
  split
  · exact yields_squareRoot hy
  · exact yields_ok hy

theorem yields_reduction (t : Text) : Yields IsFinite (Reduction.ofText t).eval := by
  fun_induction Reduction.ofText t with
  | case1 t e h =>
    refine yields_error fun he => (yields_literal? t).valid ?_
    rw [h, he]
  | case2 t value h => exact yields_ok (isFinite_of_literal? h)
  | case3 => exact yields_error (by simp)
  | case4 t => exact yields_split t
  | case5 t _ _ g _ e hresolve =>
    refine yields_error fun he => (yields_value g).valid ?_
    rw [Group.resolve_eq_error_iff.1 hresolve, he]
  | case6 t _ _ g _ result _ ih => exact ih

/-! ## Every evaluation -/

theorem yields_evaluateNormalized (ev : Evaluator) (t : Text) :
    Yields IsFinite (ev.evaluateNormalized t) := by
  rw [Evaluator.evaluateNormalized]
  split
  next => exact yields_error (by simp)
  next =>
    split
    next e h =>
      refine yields_error fun he => (yields_literal? t).valid ?_
      rw [h, he]
    next value h => exact yields_ok (isFinite_of_literal? h)
    next =>
      split
      next => exact yields_error (by simp)
      next =>
        split
        next => exact yields_error (by simp)
        next =>
          cases ev.mode with
          | standard => exact (yields_parse t).bind fun e he => yields_eval he
          | legacy => exact yields_reduction _

theorem yields_evaluate (ev : Evaluator) (s : Text) : Yields IsFinite (ev.evaluate s) := by
  by_cases h : normalize s = []
  · rw [ev.evaluate_of_normalize_eq_nil h]
    exact yields_ok rfl
  · rw [ev.evaluate_of_normalize_ne_nil h]
    exact yields_evaluateNormalized ev _

theorem Fault.eq_notANumber_of_message {fault : Fault}
    (h : fault.message = "result is not a number".toList) : fault = .notANumber := by
  have hhead : fault.message.head? = some 'r' := by rw [h]; simp
  unfold message at hhead
  split at hhead
  · rfl
  -- every other message starts with another letter
  all_goals simp at hhead

/-- **A value is a finite number, and no operation on the way to it is invalid**: an evaluation never
says that its result is not a number. -/
theorem evaluate_finite (ev : Evaluator) (s : Text) :
    (∀ x, ev.evaluate s = .ok x → x ≠ .nan ∧ (∀ negative, x ≠ .infinite negative)) ∧
      ev.evaluate s ≠ .error (.invalid .notANumber) ∧
      ∀ fault, ev.evaluate s = .error (.invalid fault) →
        fault.message ≠ "result is not a number".toList := by
  have h := yields_evaluate ev s
  refine ⟨fun x hx => ?_, h.valid, fun fault hfault hmessage => ?_⟩
  · have hfinite := h.value x hx
    cases x with
    | nan => cases hfinite
    | infinite => cases hfinite
    | finite => exact ⟨nofun, nofun⟩
  · obtain rfl := Fault.eq_notANumber_of_message hmessage
    exact h.valid hfault

end DeskCalculator
