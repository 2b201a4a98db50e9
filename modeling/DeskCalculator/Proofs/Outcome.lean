import DeskCalculator.Error

/-!
# Outcomes of several steps

Where a composed outcome is a value, every step before it has one. Where it is an error, that is an
error of one of the steps (`FailsWith.bind`).
-/

namespace DeskCalculator

variable {α β : Type}

theorem bind_eq_ok_iff {o : Outcome α} {f : α → Outcome β} {y : β} :
    o >>= f = .ok y ↔ ∃ x, o = .ok x ∧ f x = .ok y := by
  cases o with
  | error e => simp [bind, Except.bind]
  | ok x => simp [bind, Except.bind]

theorem map_eq_ok_iff {o : Outcome α} {f : α → β} {y : β} :
    o.map f = .ok y ↔ ∃ x, o = .ok x ∧ f x = y := by
  cases o with
  | error e => simp [Except.map]
  | ok x => simp [Except.map]

theorem mapM_cons_eq_ok_iff {f : α → Outcome β} {x : α} {xs : List α} {ys : List β} :
    (x :: xs).mapM f = .ok ys ↔ ∃ z zs, f x = .ok z ∧ xs.mapM f = .ok zs ∧ ys = z :: zs := by
  rw [List.mapM_cons, bind_eq_ok_iff]
  refine exists_congr fun z => ?_
  rw [bind_eq_ok_iff]
  constructor
  · rintro ⟨hz, zs, hzs, h⟩
    exact ⟨zs, hz, hzs, (Except.ok.inj h).symm⟩
  · rintro ⟨zs, hz, hzs, rfl⟩
    exact ⟨hz, zs, hzs, rfl⟩

theorem mapM_append_eq_ok_iff {f : α → Outcome β} {l r : List α} {ys : List β} :
    (l ++ r).mapM f = .ok ys ↔ ∃ us vs, l.mapM f = .ok us ∧ r.mapM f = .ok vs ∧ ys = us ++ vs := by
  rw [List.mapM_append, bind_eq_ok_iff]
  refine exists_congr fun us => ?_
  rw [bind_eq_ok_iff]
  constructor
  · rintro ⟨hus, vs, hvs, h⟩
    exact ⟨vs, hus, hvs, (Except.ok.inj h).symm⟩
  · rintro ⟨vs, hus, hvs, rfl⟩
    exact ⟨hus, vs, hvs, rfl⟩

/-- An error of the outcome has the property. -/
def FailsWith (E : CalcError → Prop) (o : Outcome α) : Prop := ∀ e, o = .error e → E e

section

variable {E E' : CalcError → Prop}

theorem failsWith_ok (x : α) : FailsWith E (.ok x : Outcome α) := nofun

theorem failsWith_error {e : CalcError} (h : E e) : FailsWith E (.error e : Outcome α) := by
  rintro _ ⟨⟩
  exact h

theorem FailsWith.bind {o : Outcome α} {f : α → Outcome β} (h : FailsWith E o)
    (hf : ∀ x, o = .ok x → FailsWith E (f x)) : FailsWith E (o >>= f) := by
  cases o with
  | error e => exact failsWith_error (h e rfl)
  | ok x => exact hf x rfl

theorem FailsWith.imp {o : Outcome α} (h : FailsWith E o) (hE : ∀ e, E e → E' e) :
    FailsWith E' o := fun e he => hE e (h e he)

end

end DeskCalculator
