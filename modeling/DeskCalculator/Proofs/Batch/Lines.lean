import DeskCalculator.Proofs.Batch.Independence
import DeskCalculator.Proofs.Evaluator.Quoting
import Mathlib.Algebra.Ring.Nat

/-!
# The lines of a batch

As text, a batch writes one line for each result, and for each error a line that goes on at the line
breaks of the text that the error quotes (`Settings.runBatch_lines`). Only the legacy mode quotes a
text with line breaks, one that it could not read. So each error is on one line in the standard mode,
and in either mode where no expression has a line break.
-/

namespace DeskCalculator

namespace Printer

theorem newline_not_mem_escape (style : Nat) : '\n' ∉ escape style := by
  have hnat := Text.newline_not_mem_ofNat style
  simp [escape, hnat]

theorem count_newline_styled (p : Printer) (styles : List Nat) (t : Text) :
    (p.styled styles t).count '\n' = t.count '\n' := by
  have hstyles : '\n' ∉ styles.flatMap escape := by
    rw [List.mem_flatMap]
    rintro ⟨style, -, hmem⟩
    exact newline_not_mem_escape style hmem
  unfold styled
  split
  · rw [count_newline_concat (newline_not_mem_escape 0), count_newline_append hstyles]
  · rfl

theorem count_newline_value (p : Printer) (x : Binary64) : (p.value x).count '\n' = 0 := by
  rw [value, count_newline_styled, List.count_eq_zero]
  exact x.newline_not_mem_general

theorem count_newline_error (p : Printer) (message : Text) :
    (p.error message).count '\n' = message.count '\n' := by
  have hword : "error:".toList.count '\n' = 0 := by decide
  rw [error, List.count_append, count_newline_styled, hword, Nat.zero_add]
  exact List.count_cons_of_ne (by decide)

end Printer

/-! ## One expression -/

/-- The line breaks in the text that an evaluation could not read. -/
def unreadBreaks : Outcome Binary64 → Nat
  | .error (.invalid (.unreadable t)) => t.count '\n'
  | _ => 0

theorem unreadBreaks_eq_zero_iff {o : Outcome Binary64} :
    unreadBreaks o = 0 ↔ ∀ t, o = .error (.invalid (.unreadable t)) → '\n' ∉ t := by
  constructor
  · rintro h t rfl
    exact List.count_eq_zero.1 h
  · intro h
    unfold unreadBreaks
    split
    next t => exact List.count_eq_zero.2 (h t rfl)
    next => rfl

namespace Evaluator

variable {ev : Evaluator} {s : Text}

theorem count_newline_quoted {e : CalcError} (h : ev.evaluate s = .error e) :
    e.quoted.count '\n' = unreadBreaks (.error e) := by
  by_cases hmem : '\n' ∈ e.quoted
  · obtain ⟨-, -, t, rfl⟩ := of_newline_mem_quoted h hmem
    rfl
  · rw [List.count_eq_zero.2 hmem, eq_comm, unreadBreaks_eq_zero_iff]
    rintro t ⟨⟩
    exact hmem

theorem unreadBreaks_of_standard (h : ev.mode = .standard) : unreadBreaks (ev.evaluate s) = 0 := by
  rw [unreadBreaks_eq_zero_iff]
  intro t ht hmem
  have hlegacy := (of_newline_mem_quoted ht hmem).1
  rw [h] at hlegacy
  cases hlegacy

theorem unreadBreaks_of_newline_not_mem (h : '\n' ∉ s) : unreadBreaks (ev.evaluate s) = 0 := by
  rw [unreadBreaks_eq_zero_iff]
  intro t ht hmem
  exact h (of_newline_mem_quoted ht hmem).2.1

end Evaluator

namespace Record

variable (ev : Evaluator) (x : Text) (printer : Printer)

theorem count_newline_out : ((Record.of ev x).written .text printer).out.count '\n' =
    if (ev.evaluate x).isOk then 1 else 0 := by
  cases h : ev.evaluate x with
  | error e =>
    simp only [of, h, written]
    rfl
  | ok y =>
    simp only [of, h, written, Written.outLine, List.count_append, printer.count_newline_value]
    rfl

theorem count_newline_err : ((Record.of ev x).written .text printer).err.count '\n' =
    (if (ev.evaluate x).isOk then 0 else 1) + unreadBreaks (ev.evaluate x) := by
  cases h : ev.evaluate x with
  | error e =>
    simp only [of, h, written, Written.errLine, List.count_append, printer.count_newline_error,
      e.count_newline_message, Evaluator.count_newline_quoted h]
    exact Nat.add_comm _ _
  | ok y =>
    simp only [of, h, written]
    rfl

end Record

/-! ## The whole batch -/

namespace Settings

section

variable (s : Settings) (printer : Printer) (xs : List Text)

theorem count_newline_out : (s.runBatch .text printer xs).2.out.count '\n' =
    xs.countP fun x => (s.evaluator.evaluate x).isOk := by
  induction xs with
  | nil => rfl
  | cons x xs ih =>
    rw [runBatch_cons, Written.append, List.count_append, Record.count_newline_out, ih,
      List.countP_cons, Nat.add_comm]

theorem count_newline_err : (s.runBatch .text printer xs).2.err.count '\n' =
    xs.countP (fun x => !(s.evaluator.evaluate x).isOk) +
      (xs.map fun x => unreadBreaks (s.evaluator.evaluate x)).sum := by
  induction xs with
  | nil => rfl
  | cons x xs ih =>
    rw [runBatch_cons, Written.append, List.count_append, Record.count_newline_err, ih,
      List.countP_cons, List.map_cons, List.sum_cons]
    cases (s.evaluator.evaluate x).isOk with
    | true => simp only [if_true, Bool.not_true, Bool.false_eq_true, if_false]; omega
    | false => simp only [Bool.false_eq_true, if_false, Bool.not_false, if_true]; omega

end

/-- **The lines of a batch, counted.** The output has one line break for each expression that has a
value. The error output has one for each that has none, and besides the line breaks of the texts that
could not be read. There are no such line breaks if and only if none of these texts has one, and so in
the standard mode, and so if the expressions have none. -/
theorem runBatch_lines (s : Settings) (printer : Printer) (xs : List Text) :
    let written := (s.runBatch .text printer xs).2
    let breaks := (xs.map fun x => unreadBreaks (s.evaluator.evaluate x)).sum
    written.out.count '\n' = xs.countP (fun x => (s.evaluator.evaluate x).isOk) ∧
      written.err.count '\n' = xs.countP (fun x => !(s.evaluator.evaluate x).isOk) + breaks ∧
      (breaks = 0 ↔ ∀ x ∈ xs, ∀ t, s.evaluator.evaluate x = .error (.invalid (.unreadable t)) →
        '\n' ∉ t) ∧
      (s.mode = .standard → breaks = 0) ∧
      ((∀ x ∈ xs, '\n' ∉ x) → breaks = 0) := by
  intro written breaks
  have hbreaks : breaks = 0 ↔ ∀ x ∈ xs, unreadBreaks (s.evaluator.evaluate x) = 0 := by
    rw [List.sum_eq_zero_iff_forall_eq_nat, List.forall_mem_map]
  refine ⟨s.count_newline_out printer xs, s.count_newline_err printer xs, ?_, fun h => ?_,
    fun h => ?_⟩
  · rw [hbreaks]
    exact forall₂_congr fun x _ => unreadBreaks_eq_zero_iff
  · exact hbreaks.2 fun x _ => Evaluator.unreadBreaks_of_standard h
  · exact hbreaks.2 fun x hx => Evaluator.unreadBreaks_of_newline_not_mem (h x hx)

/-- A failure on two lines. -/
theorem failure_on_two_lines :
    let s := { standard with mode := .legacy }
    let run := s.runBatch .text ⟨false⟩ ["a\nb".toList]
    run.1 = ⟨1, 1⟩ ∧
      run.2.err = "error: Invalid expression: cannot evaluate 'a\nb'\n".toList ∧
      run.2.err.count '\n' ≠ run.1.failed := by
  decide +kernel

end Settings

end DeskCalculator
