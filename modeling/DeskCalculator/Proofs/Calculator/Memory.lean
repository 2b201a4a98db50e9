import DeskCalculator.Proofs.Calculator.Run
import DeskCalculator.Proofs.Decimal.ReadBack

/-!
# The memory

The memory is the sum of the numbers that were added to it since it was cleared, and the numbers that
were subtracted count with the other sign. It is never `nan`. The sum is not a checked one: where
checked operations would overflow, the memory is infinite, and stays so until it is cleared. As long
as it is finite, recalling it writes a literal for it; when it is not, recalling it writes no literal
at all (`Calculator.memory_of_run`).
-/

namespace DeskCalculator

namespace Binary64

/-! ## Sums of finite numbers -/

theorem add_infinite {y : Binary64} (hy : y.isFinite = true) (negative : Bool) :
    (infinite negative).add y = infinite negative := by
  cases y with
  | nan => cases hy
  | infinite => cases hy
  | finite => rfl

theorem foldl_add_infinite {xs : List Binary64} (hxs : ∀ x ∈ xs, x.isFinite = true)
    (negative : Bool) : xs.foldl add (infinite negative) = infinite negative := by
  induction xs with
  | nil => rfl
  | cons x xs ih =>
    rw [List.foldl_cons, add_infinite (hxs x List.mem_cons_self)]
    exact ih fun y hy => hxs y (List.mem_cons_of_mem x hy)

/-- An unchecked sum of finite numbers is the checked one, but for an overflow. -/
theorem foldl_add_cases {s : Binary64} (hs : s.isFinite = true) {xs : List Binary64}
    (hxs : ∀ x ∈ xs, x.isFinite = true) :
    ((xs.foldl add s).isFinite = true ∧ xs.foldlM Operator.add.apply s = .ok (xs.foldl add s)) ∨
      ∃ negative, xs.foldl add s = infinite negative ∧
        xs.foldlM Operator.add.apply s = .error .overflow := by
  induction xs generalizing s with
  | nil => exact .inl ⟨hs, rfl⟩
  | cons x xs ih =>
    have hx := hxs x List.mem_cons_self
    have hrest : ∀ y ∈ xs, y.isFinite = true := fun y hy => hxs y (List.mem_cons_of_mem x hy)
    rw [List.foldl_cons, List.foldlM_cons, Operator.apply]
    cases hsum : s.add x with
    | nan => exact absurd hsum (add_ne_nan hs hx)
    | infinite negative => exact .inr ⟨negative, foldl_add_infinite hrest negative, rfl⟩
    | finite negative m => exact ih rfl hrest

theorem literal?_plain_infinite (negative : Bool) : literal? (infinite negative).plain = .ok none := by
  cases negative <;> decide

end Binary64

/-! ## Runs -/

theorem Call.isFinite_of_addend? {call : Call} {x : Binary64} (h : call.addend? = some x) :
    x.isFinite = true := by
  have hnumber {y : Binary64} (hy : call.number? = some y) : y.isFinite = true := by
    unfold number? at hy
    split at hy
    next hread =>
      rw [hy] at hread
      exact isFinite_of_literal? hread
    next => cases hy
  unfold addend? at h
  split at h
  next => exact hnumber h
  next =>
    obtain ⟨y, hy, rfl⟩ := Option.map_eq_some_iff.1 h
    rw [Binary64.isFinite_neg]
    exact hnumber hy
  next => cases h

namespace Calculator

/-- **The memory is a sum.** Behind any run of a new calculator, the memory is the sum, from the left,
of what was added to it since it was cleared. It is never `nan`. It is finite if and only if none of
the checked additions overflows, and then it is their result and a recall of it writes a literal that
is read as the memory, a zero without its sign. Otherwise it is infinite, and a recall of it writes no
literal. -/
theorem memory_of_run (ev : Evaluator) (capacity : Nat) (actions : List Action) :
    let c := (Calculator.new ev capacity).run actions
    let addends :=
      (since .memoryClear ((Calculator.new ev capacity).calls actions)).filterMap Call.addend?
    c.memory = addends.foldl Binary64.add .zero ∧ c.memory ≠ .nan ∧
      (c.memory.isFinite = true ∧ addends.foldlM Operator.add.apply .zero = .ok c.memory ∧
          literal? c.memoryRecall.input = .ok (some c.memory.unsignedZero) ∨
        (∃ negative, c.memory = .infinite negative) ∧
          addends.foldlM Operator.add.apply .zero = .error .overflow ∧
          literal? c.memoryRecall.input = .ok none) := by
  intro c addends
  have hsum : c.memory = addends.foldl Binary64.add .zero :=
    run_eq_foldl memory (new ev capacity) rfl (fun before a => memory_perform _ a) actions
  have haddends : ∀ x ∈ addends, x.isFinite = true := by
    intro x hx
    obtain ⟨called, -, hcalled⟩ := List.mem_filterMap.1 hx
    exact Call.isFinite_of_addend? hcalled
  obtain ⟨hfinite, hchecked⟩ | ⟨negative, hinfinite, hchecked⟩ :=
    Binary64.foldl_add_cases (s := .zero) rfl haddends
  · rw [← hsum] at hfinite hchecked
    have hnan : c.memory ≠ .nan := by
      intro h
      rw [h] at hfinite
      cases hfinite
    exact ⟨hsum, hnan, .inl ⟨hfinite, hchecked, literal?_plain hfinite⟩⟩
  · rw [← hsum] at hinfinite
    have hrecall : literal? c.memoryRecall.input = .ok none := by
      rw [memoryRecall, hinfinite]
      exact Binary64.literal?_plain_infinite negative
    exact ⟨hsum, by rw [hinfinite]; nofun, .inr ⟨⟨negative, hinfinite⟩, hchecked, hrecall⟩⟩

/-- A memory that is not finite: `10 ^ 308` twice. -/
theorem memory_not_finite :
    let c := (Calculator.new ⟨.standard, .standard⟩ 50).run
      [.setInput ('1' :: List.replicate 308 '0'), .memoryAdd, .memoryAdd]
    c.memory = .infinite false ∧ c.memoryRecall.input = "inf".toList ∧
      literal? c.memoryRecall.input = .ok none := by
  decide +kernel

end Calculator

end DeskCalculator
