import DeskCalculator.Proofs.Decimal.Shortest
import DeskCalculator.Proofs.Evaluator.Checks
import DeskCalculator.Proofs.Reduction.Flat

/-!
# Plain numbers as input

What is written of a finite number is the shortest decimal that identifies it, with all its places and
never with a power of ten, and it can be put in again: it is a literal, and all evaluators give the number
back, a zero without its sign (`plain_round_trip`).
-/

namespace DeskCalculator

namespace Decimal

/-- A sign at most, digits, and a point at most, with digits on both sides. -/
def IsPositional (t : Text) : Prop :=
  ∃ sign whole places : Text, t = sign ++ whole ++ places ∧ (sign = [] ∨ sign = ['-']) ∧
    IsDigits whole ∧ (places = [] ∨ ∃ u, IsDigits u ∧ places = '.' :: u)

theorem isPositional_plain (d : Decimal) (negative : Bool) :
    IsPositional (Binary64.signed negative d.plain) := by
  have hsign : ∃ sign : Text, (sign = [] ∨ sign = ['-']) ∧
      Binary64.signed negative d.plain = sign ++ d.plain := by
    cases negative with
    | false => exact ⟨[], .inl rfl, rfl⟩
    | true => exact ⟨['-'], .inr rfl, rfl⟩
  obtain ⟨sign, hsign, hwritten⟩ := hsign
  rw [hwritten]
  by_cases hexponent : 0 ≤ d.exponent
  · exact ⟨sign, d.plain, [], by simp, hsign, (plain_of_nonneg hexponent).1, .inl rfl⟩
  · obtain ⟨t, u, hplain, ht, hu, -⟩ := plain_of_neg hexponent
    exact ⟨sign, t, '.' :: u, by simp [hplain], hsign, ht, .inr ⟨u, hu, rfl⟩⟩

end Decimal

namespace Binary64

theorem toBits_unsignedZero (x : Binary64) :
    x.unsignedZero.toBits = if x.isZero then 0 else x.toBits := by
  unfold unsignedZero
  split
  next => rfl
  next => rfl

end Binary64

/-- **A finite number is written as its shortest decimal and read back with the same bits**, but for the
sign of a zero. -/
theorem plain_round_trip {x : Binary64} (hx : x.isFinite = true) :
    Decimal.IsPositional x.plain ∧
    (∃ (negative : Bool) (m : Magnitude) (d : Decimal), x = .finite negative m ∧ d.IsShortestOf m ∧
      x.plain = Binary64.signed x.isBelowZero d.plain ∧
      (Literal.unsignedValue d.plain).toRat = d.toRat) ∧
    ∃ w, literal? x.plain = .ok (some w) ∧ w.toBits = (if x.isZero then 0 else x.toBits) ∧
      ∀ ev : Evaluator, x.plain.length ≤ ev.limits.maxLength → ev.evaluate x.plain = .ok w := by
  cases x with
  | nan => cases hx
  | infinite => cases hx
  | finite negative m =>
    have hplain := plain_finite negative m
    have hread := literal?_plain hx
    have hnormal := normalize_of_isGraphic (isGraphic_plain hx)
    have hne := Split.plain_ne_nil hx
    refine ⟨?_, ⟨negative, m, m.shortest .up, rfl, m.isShortestOf_shortest .up, hplain,
      Decimal.toRat_unsignedValue_plain _⟩, _, hread, Binary64.toBits_unsignedZero _, fun ev hlength =>
        ev.evaluate_of_literal? hnormal hne hlength hread⟩
    rw [hplain]
    exact Decimal.isPositional_plain _ _

/-- The theorem at the number next to `-0.1`. -/
theorem plain_round_trip_tenth : ∃ w, literal? "-0.1".toList = .ok (some w) ∧
    w.toBits = 0xBFB999999999999A ∧ (Evaluator.mk .legacy .standard).evaluate "-0.1".toList = .ok w := by
  have hwritten : (Binary64.ofBits 0xBFB999999999999A).plain = "-0.1".toList := by decide +kernel
  obtain ⟨-, -, w, hread, hbits, hvalue⟩ :=
    plain_round_trip (x := .ofBits 0xBFB999999999999A) (by decide)
  rw [hwritten] at hread hvalue
  exact ⟨w, hread, hbits, hvalue _ (by decide)⟩

end DeskCalculator
