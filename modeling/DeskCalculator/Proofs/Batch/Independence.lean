import DeskCalculator.Batch
import DeskCalculator.Proofs.Evaluator.Finiteness
import DeskCalculator.Proofs.Json.OneLine
import DeskCalculator.Proofs.Json.Reading

/-!
# Batches are independent

The expressions of a batch do not know of each other (`Settings.runBatch_exact`): a batch of two parts
counts and writes what the parts do, one after the other. So the counts are the numbers of all
expressions and of those that fail, and as JSON the output has one line for each expression, from which
another program reads the expression and what it comes to (`Reports`).

A batch is a loop that carries the counts and what is written so far. What one pass adds to them
does not depend on them (`Settings.nextExpression_eq`), hence neither does what a batch adds.
-/

namespace DeskCalculator

namespace Written

theorem append_assoc (u v w : Written) : (u.append v).append w = u.append (v.append w) := by
  simp only [append, List.append_assoc]

@[simp] theorem nothing_append (w : Written) : nothing.append w = w := rfl

@[simp] theorem append_nothing (w : Written) : w.append nothing = w := by
  simp only [append, nothing, List.append_nil]

end Written

namespace Summary

/-- The counts of two batches together. -/
def add (s t : Summary) : Summary := ⟨s.total + t.total, s.failed + t.failed⟩

/-- The counts of one record. -/
def one (r : Record) : Summary := ⟨1, if r.isFailed then 1 else 0⟩

theorem count_eq (s : Summary) (r : Record) : s.count r = s.add (one r) := by
  unfold count add one
  split <;> rfl

theorem add_assoc (s t u : Summary) : (s.add t).add u = s.add (t.add u) := by
  simp only [add, Nat.add_assoc]

@[simp] theorem zero_add (s : Summary) : add ⟨0, 0⟩ s = s := by
  simp only [add, Nat.zero_add]

@[simp] theorem add_zero (s : Summary) : s.add ⟨0, 0⟩ = s := rfl

theorem result_eq_ok_iff (s : Summary) : s.result = .ok () ↔ s.failed = 0 := by
  unfold result
  split
  next h => simp [h]
  next h => simp [h]

theorem result_eq_error_iff (s : Summary) :
    s.result = .error (.expressionsFailed s.failed s.total) ↔ 0 < s.failed := by
  unfold result
  split
  next h => simp [h]
  next h => simp [Nat.pos_of_ne_zero h]

end Summary

/-! ## Records -/

/-- A line that reports an expression and what it comes to: its value, as a number and as it is displayed,
or the message of its error. -/
def Reports (line expression : Text) : Outcome Binary64 → Prop
  | .ok x => ∃ quoted number display,
      line = Json.objectText [("expression".toList, quoted), ("result".toList, number),
        ("display".toList, display)] ∧
      Json.unquote? quoted = some expression ∧ Json.number? number = some x ∧
      Json.unquote? display = some x.general
  | .error e => ∃ quoted message,
      line = Json.objectText [("expression".toList, quoted), ("error".toList, message)] ∧
      Json.unquote? quoted = some expression ∧ Json.unquote? message = some e.message

theorem Record.reports_render (ev : Evaluator) (x : Text) :
    Reports (Record.of ev x).toJson.render x (ev.evaluate x) := by
  have hexpression : Json.unquote? (Json.renderText x) = some x := Json.unquote?_renderText x
  rw [of, toJson]
  cases houtcome : ev.evaluate x with
  | ok y =>
    have hfinite : y.isFinite = true := (yields_evaluate ev x).value y houtcome
    refine ⟨Json.renderText x, Json.renderNumber y, Json.renderText y.general, ?_, hexpression,
      Json.number?_renderNumber hfinite, Json.unquote?_renderText y.general⟩
    exact Json.render_object (by simp; decide)
  | error e =>
    refine ⟨Json.renderText x, Json.renderText e.message, ?_, hexpression,
      Json.unquote?_renderText e.message⟩
    exact Json.render_object (by simp; decide)

theorem Record.isFailed_iff (ev : Evaluator) (x : Text) :
    (Record.of ev x).isFailed = true ↔ ∃ e, ev.evaluate x = .error e := by
  unfold isFailed of
  cases ev.evaluate x with
  | error e => simp [Except.isOk, Except.toBool]
  | ok y => simp [Except.isOk, Except.toBool]

namespace Settings

variable (s : Settings) (format : OutputFormat) (printer : Printer)

/-! ## The loop -/

/-- One pass adds to what is done so far, whatever that is. -/
theorem nextExpression_eq (done : Summary × Written) (x : Text) :
    s.nextExpression format printer done x =
      (done.1.add (.one (.of s.evaluator x)),
        done.2.append ((Record.of s.evaluator x).written format printer)) := by
  rw [nextExpression, Summary.count_eq]

theorem foldl_nextExpression (done : Summary × Written) (xs : List Text) :
    xs.foldl (s.nextExpression format printer) done =
      (done.1.add (s.runBatch format printer xs).1,
        done.2.append (s.runBatch format printer xs).2) := by
  induction xs generalizing done with
  | nil => simp only [List.foldl_nil, runBatch, Summary.add_zero, Written.append_nothing]
  | cons x xs ih =>
    rw [runBatch, List.foldl_cons, List.foldl_cons, ih, ih]
    simp only [nextExpression_eq, Summary.add_assoc, Summary.zero_add, Written.append_assoc,
      Written.nothing_append]

theorem runBatch_cons (x : Text) (xs : List Text) :
    s.runBatch format printer (x :: xs) =
      ((Summary.one (.of s.evaluator x)).add (s.runBatch format printer xs).1,
        ((Record.of s.evaluator x).written format printer).append
          (s.runBatch format printer xs).2) := by
  rw [runBatch, List.foldl_cons, foldl_nextExpression, nextExpression_eq, Summary.zero_add,
    Written.nothing_append]

theorem runBatch_append (xs ys : List Text) :
    s.runBatch format printer (xs ++ ys) =
      ((s.runBatch format printer xs).1.add (s.runBatch format printer ys).1,
        (s.runBatch format printer xs).2.append (s.runBatch format printer ys).2) := by
  rw [runBatch, List.foldl_append, foldl_nextExpression, ← runBatch]

/-! ## What a batch comes to -/

theorem runBatch_counts (xs : List Text) :
    (s.runBatch format printer xs).1 =
      ⟨xs.length, xs.countP fun x => (Record.of s.evaluator x).isFailed⟩ := by
  induction xs with
  | nil => rfl
  | cons x xs ih =>
    rw [runBatch_cons, ih, List.countP_cons, List.length_cons, Summary.add, Summary.one,
      Nat.add_comm 1, Nat.add_comm (ite _ _ _)]

theorem runBatch_json (xs : List Text) :
    (s.runBatch .json printer xs).2.err = [] ∧
      ∃ lines, (s.runBatch .json printer xs).2.out.splitOn '\n' = lines ++ [[]] ∧
        List.Forall₂ (fun line x => Reports line x (s.evaluator.evaluate x)) lines xs := by
  induction xs with
  | nil => exact ⟨rfl, [], rfl, .nil⟩
  | cons x xs ih =>
    obtain ⟨herr, lines, hout, hlines⟩ := ih
    rw [runBatch_cons]
    refine ⟨herr, (Record.of s.evaluator x).toJson.render :: lines, ?_,
      .cons (Record.reports_render s.evaluator x) hlines⟩
    have hline : ∀ c ∈ (Record.of s.evaluator x).toJson.render, (c == '\n') = false := by
      intro c hc
      rw [beq_eq_false_iff_ne]
      rintro rfl
      exact Json.newline_not_mem_render _ hc
    show ((Record.of s.evaluator x).toJson.render ++ ['\n'] ++
      (s.runBatch .json printer xs).2.out).splitOn '\n' = _
    rw [List.append_assoc, List.singleton_append, List.splitOn,
      List.splitOnP_append_cons_of_forall_mem hline '\n' (beq_self_eq_true '\n'), ← List.splitOn, hout]
    rfl

/-- **A batch evaluates each expression on its own, and in order.** What it writes and counts for two
lists of expressions is what it does for the one and then for the other. It counts all expressions
and those that fail, which are not more, and it fails with these counts if and only if there are any. As
JSON nothing is written to the error output, and the output has one line for each expression, which reports
the expression and what it comes to. -/
theorem runBatch_exact (xs ys : List Text) :
    let both := s.runBatch format printer (xs ++ ys)
    let left := s.runBatch format printer xs
    let right := s.runBatch format printer ys
    (both.2.out = left.2.out ++ right.2.out ∧ both.2.err = left.2.err ++ right.2.err ∧
        both.1 = ⟨left.1.total + right.1.total, left.1.failed + right.1.failed⟩) ∧
      (left.1.total = xs.length ∧
        left.1.failed = xs.countP (fun x => !(s.evaluator.evaluate x).isOk) ∧
        left.1.failed ≤ left.1.total ∧ left.1.succeeded + left.1.failed = left.1.total) ∧
      (left.1.result = .ok () ↔ ¬ ∃ x ∈ xs, ∃ e, s.evaluator.evaluate x = .error e) ∧
      (left.1.result = .error (.expressionsFailed left.1.failed left.1.total) ↔
        ∃ x ∈ xs, ∃ e, s.evaluator.evaluate x = .error e) ∧
      (s.runBatch .json printer xs).2.err = [] ∧
      ∃ lines, (s.runBatch .json printer xs).2.out.splitOn '\n' = lines ++ [[]] ∧
        List.Forall₂ (fun line x => Reports line x (s.evaluator.evaluate x)) lines xs := by
  intro both left right
  have hboth : both = (left.1.add right.1, left.2.append right.2) :=
    s.runBatch_append format printer xs ys
  have hleft : left.1 = ⟨xs.length, xs.countP fun x => (Record.of s.evaluator x).isFailed⟩ :=
    s.runBatch_counts format printer xs
  have hle : left.1.failed ≤ left.1.total := by
    rw [hleft]
    exact List.countP_le_length
  have hfailed : 0 < left.1.failed ↔ ∃ x ∈ xs, ∃ e, s.evaluator.evaluate x = .error e := by
    rw [hleft, List.countP_pos_iff]
    exact exists_congr fun x => and_congr_right fun _ => Record.isFailed_iff s.evaluator x
  refine ⟨?_, ⟨?_, ?_, hle, Nat.sub_add_cancel hle⟩, ?_, ?_, s.runBatch_json printer xs⟩
  · rw [hboth]
    exact ⟨rfl, rfl, rfl⟩
  · rw [hleft]
  · rw [hleft]
    rfl
  · rw [Summary.result_eq_ok_iff, ← hfailed, Nat.pos_iff_ne_zero, not_not]
  · rw [Summary.result_eq_error_iff]
    exact hfailed

end Settings

end DeskCalculator
