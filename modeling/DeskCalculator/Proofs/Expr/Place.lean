import DeskCalculator.Proofs.Expr.Grammar

/-!
# Places in an expression

Which token may follow a part of an expression depends on little: how many groups are open and
whether an operand, a group or an operator is expected (`Place`). A token list leads from one place
to another or breaks off (`Place.run`), and the lists that lead from the start to the end of an
expression are the sentences of the grammar (`wellShaped_iff_derives`).

One direction is by induction on the derivation. For the other, `Place.Reached` describes what a part
of an expression that leads to a place looks like: some groups are open (`Inside`), and behind the
last opening parenthesis stands what expects an operand (`ExpectsOperand`) or a whole sum. One token
keeps the description (`reached_step`), hence so does a run.
-/

namespace DeskCalculator

/-- What is expected at a place. -/
inductive Want where
  | operand
  | group
  | operator
  deriving DecidableEq

/-- A place in an expression. -/
structure Place where
  /-- The number of groups that are open. -/
  depth : Nat
  want : Want
  deriving DecidableEq

namespace Place

/-- The place behind one more token, if the token may stand here. -/
def step : Place → Token → Option Place
  | ⟨d, .operand⟩, .number _ => some ⟨d, .operator⟩
  | ⟨d, .operand⟩, .operator .add => some ⟨d, .operand⟩
  | ⟨d, .operand⟩, .operator .subtract => some ⟨d, .operand⟩
  | ⟨d, .operand⟩, .opening => some ⟨d + 1, .operand⟩
  | ⟨d, .operand⟩, .root => some ⟨d, .group⟩
  | ⟨d, .group⟩, .opening => some ⟨d + 1, .operand⟩
  | ⟨d, .operator⟩, .operator _ => some ⟨d, .operand⟩
  | ⟨d + 1, .operator⟩, .closing => some ⟨d, .operator⟩
  | _, _ => none

/-- The place behind a token list. -/
def run (p : Place) (ts : List Token) : Option Place := ts.foldlM step p

@[simp] theorem run_nil (p : Place) : p.run [] = some p := rfl

@[simp] theorem run_cons (p : Place) (t : Token) (ts : List Token) :
    p.run (t :: ts) = (p.step t).bind (·.run ts) := rfl

theorem run_append (p : Place) (l r : List Token) : p.run (l ++ r) = (p.run l).bind (·.run r) :=
  List.foldlM_append

theorem run_append_of_run {p q : Place} {l : List Token} (h : p.run l = some q) (r : List Token) :
    p.run (l ++ r) = q.run r := by
  rw [run_append, h, Option.bind_some]

/-- The place before an expression. -/
def start : Place := ⟨0, .operand⟩

/-- The place behind an expression. -/
def finish : Place := ⟨0, .operator⟩

theorem step_operand_of_isAdditive {op : Operator} (hop : op.IsAdditive) (d : Nat) :
    step ⟨d, .operand⟩ (.operator op) = some ⟨d, .operand⟩ := by
  rcases hop with rfl | rfl <;> rfl

theorem run_signs (d : Nat) {signs : List Operator} (hsigns : ∀ op ∈ signs, op.IsAdditive) :
    run ⟨d, .operand⟩ (signs.map .operator) = some ⟨d, .operand⟩ := by
  induction signs with
  | nil => rfl
  | cons op signs ih =>
    rw [List.map_cons, run_cons, step_operand_of_isAdditive (hsigns op (by simp)) d]
    exact ih fun o ho => hsigns o (by simp [ho])

theorem depth_of_step {p q : Place} {t : Token} (h : p.step t = some q) :
    q.depth + [t].count .closing = p.depth + [t].count .opening := by
  unfold step at h
  split at h <;> cases h <;> rfl

theorem depth_of_run {p q : Place} {ts : List Token} (h : p.run ts = some q) :
    q.depth + ts.count .closing = p.depth + ts.count .opening := by
  induction ts generalizing p with
  | nil =>
    obtain rfl := Option.some.inj h
    rfl
  | cons t ts ih =>
    rw [run_cons] at h
    obtain ⟨m, hm, hq⟩ := Option.bind_eq_some_iff.1 h
    have hstep := depth_of_step hm
    have hrest := ih hq
    rw [List.count_singleton, List.count_singleton] at hstep
    rw [List.count_cons, List.count_cons]
    omega

end Place

/-- Token lists with the shape of an expression. -/
def WellShaped (ts : List Token) : Prop := Place.start.run ts = some .finish

namespace Derives

open Place

theorem run_eq {stratum : Stratum} {ts : List Token} {e : Expr} (h : Derives stratum ts e)
    (d : Nat) : run ⟨d, .operand⟩ ts = some ⟨d, .operator⟩ := by
  induction h generalizing d with
  | sum _ _ _ ihl ihr =>
    rw [run_append_of_run (ihl d)]
    exact ihr d
  | ofProduct _ ih => exact ih d
  | product _ _ _ ihl ihr =>
    rw [run_append_of_run (ihl d)]
    exact ihr d
  | ofSigned _ ih => exact ih d
  | signed hsigns _ ih =>
    rw [run_append_of_run (run_signs d hsigns)]
    exact ih d
  | number value => rfl
  | group _ ih => exact run_append_of_run (ih (d + 1)) [.closing]
  | root _ ih => exact run_append_of_run (ih (d + 1)) [.closing]

end Derives

/-! ## What leads to a place -/

/-- Tokens that make a sum with any signed operand behind them. -/
def ExpectsOperand (ts : List Token) : Prop :=
  ∀ us e, Derives .signed us e → ∃ e', Derives .sum (ts ++ us) e'

theorem expectsOperand_nil : ExpectsOperand [] := fun _ e h => ⟨e, .ofProduct (.ofSigned h)⟩

theorem ExpectsOperand.append_sign {ts : List Token} (h : ExpectsOperand ts) {op : Operator}
    (hop : op.IsAdditive) : ExpectsOperand (ts ++ [.operator op]) := by
  intro us e hus
  obtain ⟨e', he'⟩ := Derives.sign_cons hop hus
  rw [List.append_assoc]
  exact h _ _ he'

theorem expectsOperand_of_sum {ts : List Token} {e : Expr} (h : Derives .sum ts e) (op : Operator) :
    ExpectsOperand (ts ++ [.operator op]) := by
  intro us e' hus
  rw [List.append_assoc]
  exact h.sum_append hus

/-- Tokens with a number of open groups, up to the last opening parenthesis. -/
inductive Inside : Nat → List Token → Prop
  | outer : Inside 0 []
  | group {d : Nat} {ts us : List Token} :
      Inside d ts → ExpectsOperand us → Inside (d + 1) (ts ++ us ++ [.opening])
  | root {d : Nat} {ts us : List Token} :
      Inside d ts → ExpectsOperand us → Inside (d + 1) (ts ++ us ++ [.root, .opening])

/-- A sum in the last open group closes that group and ends a sum in the one around it. -/
theorem Inside.close {d : Nat} {ts us : List Token} {e : Expr} (h : Inside (d + 1) ts)
    (hus : Derives .sum us e) :
    ∃ outer vs e', ts ++ us ++ [.closing] = outer ++ vs ∧ Inside d outer ∧ Derives .sum vs e' := by
  cases h with
  | group hinside hexpects =>
    obtain ⟨e', he'⟩ := hexpects _ _ (Derives.group hus).ofPrimary
    exact ⟨_, _, e', by simp, hinside, he'⟩
  | root hinside hexpects =>
    obtain ⟨e', he'⟩ := hexpects _ _ (Derives.root hus).ofPrimary
    exact ⟨_, _, e', by simp, hinside, he'⟩

namespace Place

/-- What stands between the last open group and a place. -/
def Behind (want : Want) (ts : List Token) : Prop :=
  match want with
  | .operand => ExpectsOperand ts
  | .group => ∃ us, ts = us ++ [.root] ∧ ExpectsOperand us
  | .operator => ∃ e, Derives .sum ts e

/-- What leads from the start of an expression to a place. -/
def Reached (p : Place) (ts : List Token) : Prop :=
  ∃ outer us, ts = outer ++ us ∧ Inside p.depth outer ∧ Behind p.want us

theorem reached_start : Reached start [] := ⟨[], [], rfl, .outer, expectsOperand_nil⟩

theorem reached_step {p q : Place} {ts : List Token} {t : Token} (hreached : Reached p ts)
    (hstep : p.step t = some q) : Reached q (ts ++ [t]) := by
  obtain ⟨outer, us, rfl, hinside, hbehind⟩ := hreached
  rw [List.append_assoc]
  unfold step at hstep
  split at hstep
  next d value =>
    obtain rfl := Option.some.inj hstep
    exact ⟨outer, _, rfl, hinside, hbehind _ _ (Derives.number value).ofPrimary⟩
  next d =>
    obtain rfl := Option.some.inj hstep
    exact ⟨outer, _, rfl, hinside, hbehind.append_sign (.inl rfl)⟩
  next d =>
    obtain rfl := Option.some.inj hstep
    exact ⟨outer, _, rfl, hinside, hbehind.append_sign (.inr rfl)⟩
  next d =>
    obtain rfl := Option.some.inj hstep
    exact ⟨_, [], by simp, .group hinside hbehind, expectsOperand_nil⟩
  next d =>
    obtain rfl := Option.some.inj hstep
    exact ⟨outer, _, rfl, hinside, us, rfl, hbehind⟩
  next d =>
    obtain rfl := Option.some.inj hstep
    obtain ⟨vs, rfl, hexpects⟩ := hbehind
    exact ⟨_, [], by simp, .root hinside hexpects, expectsOperand_nil⟩
  next d op =>
    obtain rfl := Option.some.inj hstep
    obtain ⟨e, he⟩ := hbehind
    exact ⟨outer, _, rfl, hinside, expectsOperand_of_sum he op⟩
  next d =>
    obtain rfl := Option.some.inj hstep
    obtain ⟨e, he⟩ := hbehind
    obtain ⟨outer', vs, e', heq, hinside', he'⟩ := hinside.close he
    exact ⟨outer', vs, by rw [← heq, List.append_assoc], hinside', e', he'⟩
  next => simp at hstep

theorem reached_run {p q : Place} {front ts : List Token} (hreached : Reached p front)
    (hrun : p.run ts = some q) : Reached q (front ++ ts) := by
  induction ts generalizing p front with
  | nil =>
    obtain rfl := Option.some.inj hrun
    rwa [List.append_nil]
  | cons t ts ih =>
    rw [run_cons] at hrun
    obtain ⟨r, hstep, hrest⟩ := Option.bind_eq_some_iff.1 hrun
    have h := ih (reached_step hreached hstep) hrest
    rwa [List.append_assoc] at h

end Place

/-- **The token lists with the shape of an expression are the sentences of the grammar.** -/
theorem wellShaped_iff_derives {ts : List Token} : WellShaped ts ↔ ∃ e, Derives .sum ts e := by
  constructor
  · intro h
    obtain ⟨outer, us, rfl, hinside, e, he⟩ := Place.reached_run Place.reached_start h
    cases hinside
    exact ⟨e, he⟩
  · rintro ⟨e, he⟩
    exact he.run_eq 0

end DeskCalculator
