import DeskCalculator.Calculator
import DeskCalculator.Proofs.Binary64.Range
import DeskCalculator.Proofs.Evaluator.Continuation
import DeskCalculator.Proofs.Evaluator.Finiteness
import Mathlib.Data.List.Forall2

/-!
# A pocket calculator

The calculator keeps a text between two keys. Once it shows a result, it does what a pocket calculator
does that keeps two numbers, the current one and a memory (`Pocket`): whatever keys are pressed, the
answers are the same, the input is a literal for the current number, the memory is the same, and a run
ends with the same error (`calculator_simulates_pocket`). The sign of a zero is not told apart, as it
gets lost where a zero is written.

One key keeps the two in step (`Shows.press`), hence so does a run. In particular, a
chain of operations is computed from the left, in both modes and whatever the precedence.
-/

namespace DeskCalculator

open Binary64 (unsignedZero)

/-! ## Keys -/

/-- An unsigned literal and its value. -/
structure Operand where
  text : Text
  value : Binary64
  isUnsigned : Literal.isUnsigned text = true
  reads : literal? text = .ok (some value)

/-- One more operation on the current number, and when it is calculated. -/
structure NextOperation where
  glyph : Glyph
  operand : Operand
  time : Nat

namespace NextOperation

/-- What is written behind the input. -/
def text (next : NextOperation) : Text := next.glyph.char :: next.operand.text

/-- The operation. -/
def apply (next : NextOperation) (x : Binary64) : Outcome Binary64 :=
  next.glyph.operator.apply x next.operand.value

/-- A chain of operations, each on the result of the one before. -/
def chain (nexts : List NextOperation) (x : Binary64) : Outcome Binary64 :=
  nexts.foldlM (fun x (next : NextOperation) => next.apply x) x

end NextOperation

/-- What can be done once a result is shown. -/
inductive Key where
  | proceed (next : NextOperation)
  | calculate (time : Nat)
  | toggleSign
  | percentage
  | memoryAdd
  | memorySubtract
  | memoryRecall

/-- The numbers of a pocket calculator. -/
structure Pocket where
  current : Binary64
  memory : Binary64
  deriving DecidableEq

namespace Pocket

/-- The answer to a key, if the key has one, and the numbers behind it. -/
def press (p : Pocket) : Key → Outcome (Option Binary64) × Pocket
  | .proceed next =>
    match next.apply p.current with
    | .error e => (.error e, p)
    | .ok x => (.ok (some x), { p with current := x })
  | .calculate _ => (.ok (some p.current), p)
  | .toggleSign => (.ok none, { p with current := p.current.neg })
  | .percentage =>
    let x := p.current.div Calculator.hundred
    (.ok (some x), { p with current := x })
  | .memoryAdd => (.ok none, { p with memory := p.memory.add p.current })
  | .memorySubtract => (.ok none, { p with memory := p.memory.sub p.current })
  | .memoryRecall => (.ok none, { p with current := p.memory })

end Pocket

namespace Calculator

/-- The answer to a key, if the key has one, and the calculator behind it. -/
def press (c : Calculator) : Key → Outcome (Option Binary64) × Calculator
  | .proceed next => (c.append next.text).calculate next.time
  | .calculate time => c.calculate time
  | .toggleSign => (.ok none, c.toggleSign)
  | .percentage => (c.percentage.1.map some, c.percentage.2)
  | .memoryAdd => (.ok none, c.memoryAdd)
  | .memorySubtract => (.ok none, c.memorySubtract)
  | .memoryRecall => (.ok none, c.memoryRecall)

/-- Whether a text that a key evaluates is not too long, and a memory that it recalls is finite. -/
def fits (c : Calculator) : Key → Bool
  | .proceed next => (c.input ++ next.text).length ≤ c.evaluator.limits.maxLength
  | .calculate _ | .percentage => c.input.length ≤ c.evaluator.limits.maxLength
  | .memoryRecall => c.memory.isFinite
  | .toggleSign | .memoryAdd | .memorySubtract => true

/-- Whether each key of a run fits, up to the first error. -/
def fitsAll (c : Calculator) : List Key → Bool
  | [] => true
  | key :: keys =>
    c.fits key &&
      match c.press key with
      | (.error _, _) => true
      | (.ok _, next) => next.fitsAll keys

end Calculator

/-- A run of keys: each answer with the state behind it, and the last state or the first error. -/
def runKeys {σ : Type} (press : σ → Key → Outcome (Option Binary64) × σ) (s : σ) :
    List Key → List (Option Binary64 × σ) × Outcome σ
  | [] => ([], .ok s)
  | key :: keys =>
    match press s key with
    | (.error e, _) => ([], .error e)
    | (.ok answer, next) => ((answer, next) :: (runKeys press next keys).1, (runKeys press next keys).2)

/-! ## The simulation -/

/-- The calculator shows what the pocket calculator holds, up to the sign of a zero. -/
structure Shows (c : Calculator) (p : Pocket) : Prop where
  input : ∃ x, Writes c.input x ∧ x.unsignedZero = p.current.unsignedZero
  memory : c.memory.unsignedZero = p.memory.unsignedZero

/-- Two answers are the same up to the sign of a zero. -/
def SameAnswer (a b : Option Binary64) : Prop := a.map unsignedZero = b.map unsignedZero

/-- Two runs, or two single keys, end with states in step or with the same error. -/
inductive InStep : Outcome Calculator → Outcome Pocket → Prop
  | ok {c : Calculator} {p : Pocket} : Shows c p → InStep (.ok c) (.ok p)
  | error (e : CalcError) : InStep (.error e) (.error e)

/-- The answers to one key agree, and if there is an answer then the states behind the key are in
step. -/
inductive Agree : Outcome (Option Binary64) × Calculator → Outcome (Option Binary64) × Pocket → Prop
  | ok {a b : Option Binary64} {c : Calculator} {p : Pocket} : SameAnswer a b → Shows c p →
      Agree (.ok a, c) (.ok b, p)
  | error (e : CalcError) (c : Calculator) (p : Pocket) : Agree (.error e, c) (.error e, p)

theorem denotes_hundred : Calculator.hundred.Denotes 100 :=
  Decimal.denotes_toBinary64 (n := 100) (by decide)

theorem unsignedZero_div_hundred {x y : Binary64} (h : x.unsignedZero = y.unsignedZero) :
    (x.div Calculator.hundred).unsignedZero = (y.div Calculator.hundred).unsignedZero := by
  have hzero := denotes_hundred.isZero_eq_false (by decide)
  rw [← Binary64.unsignedZero_div_left x hzero, h, Binary64.unsignedZero_div_left y hzero]

theorem Calculator.calculate_of_evaluate {c : Calculator} (hinput : Text.trim c.input ≠ [])
    (time : Nat) :
    c.calculate time =
      match c.evaluator.evaluate c.input with
      | .error e => (.error e, { c with result := some (.error e) })
      | .ok x =>
        (.ok (some x),
          { c with
            input := x.plain
            result := some (.ok x)
            history := c.history.push ⟨c.input, x, time⟩ }) := if_neg hinput

namespace Shows

theorem of_plain {c : Calculator} {p : Pocket} {x : Binary64} (hinput : c.input = x.plain)
    (hx : x.isFinite = true) (hcurrent : x.unsignedZero = p.current.unsignedZero)
    (hmemory : c.memory.unsignedZero = p.memory.unsignedZero) : Shows c p := by
  refine ⟨⟨x.unsignedZero, ?_, by rwa [Binary64.unsignedZero_unsignedZero]⟩, hmemory⟩
  rw [hinput]
  exact writes_plain hx

theorem of_calculate {c₀ c : Calculator} {time : Nat} {v : Binary64}
    (h : c₀.calculate time = (.ok (some v), c)) : Shows c ⟨v, c.memory⟩ := by
  unfold Calculator.calculate at h
  split at h
  next => cases h
  next =>
    split at h
    next => cases h
    next x hvalue =>
      obtain ⟨hx, rfl⟩ := Prod.mk.inj h
      obtain rfl := Option.some.inj (Except.ok.inj hx)
      exact of_plain rfl ((yields_evaluate _ _).value x hvalue) rfl rfl

variable {c : Calculator} {p : Pocket} (h : Shows c p)

include h

/-! ### Keys that calculate -/

theorem trim_input_append_ne_nil (t : Text) : Text.trim (c.input ++ t) ≠ [] := by
  obtain ⟨x, hx, -⟩ := h.input
  obtain ⟨d, u, hinput⟩ := List.exists_cons_of_ne_nil hx.ne_nil
  have hd : d ∈ c.input := by simp [hinput]
  exact Text.trim_ne_nil (List.mem_append_left t hd) (Text.isBlank_of_isGraphic hx.isGraphic hd)

theorem press_proceed (next : NextOperation)
    (hfits : (c.input ++ next.text).length ≤ c.evaluator.limits.maxLength) :
    Agree (c.press (.proceed next)) (p.press (.proceed next)) := by
  obtain ⟨x, hx, hcurrent⟩ := h.input
  have hvalue : (c.append next.text).evaluator.evaluate (c.append next.text).input = next.apply x :=
    c.evaluator.evaluate_continuation hx next.operand.isUnsigned next.operand.reads next.glyph hfits
  have hsame : (next.apply x).map unsignedZero = (next.apply p.current).map unsignedZero := by
    unfold NextOperation.apply
    rw [← map_unsignedZero_apply, hcurrent, map_unsignedZero_apply]
  rw [Calculator.press, Calculator.calculate_of_evaluate (h.trim_input_append_ne_nil _), hvalue,
    Pocket.press]
  cases hleft : next.apply x with
  | error e =>
    cases hright : next.apply p.current with
    | error e' =>
      rw [hleft, hright] at hsame
      obtain rfl := Except.error.inj hsame
      exact .error e _ _
    | ok y =>
      rw [hleft, hright] at hsame
      cases hsame
  | ok z =>
    cases hright : next.apply p.current with
    | error e =>
      rw [hleft, hright] at hsame
      cases hsame
    | ok y =>
      rw [hleft, hright] at hsame
      have hzero := Except.ok.inj hsame
      exact .ok (congrArg some hzero) (of_plain rfl (isFinite_of_apply hleft) hzero h.memory)

theorem press_calculate (time : Nat) (hfits : c.input.length ≤ c.evaluator.limits.maxLength) :
    Agree (c.press (.calculate time)) (p.press (.calculate time)) := by
  obtain ⟨x, hx, hcurrent⟩ := h.input
  have hblank := h.trim_input_append_ne_nil []
  rw [List.append_nil] at hblank
  rw [Calculator.press, Calculator.calculate_of_evaluate hblank,
    c.evaluator.evaluate_writes hx hfits, Pocket.press]
  exact .ok (congrArg some hcurrent) (of_plain rfl hx.isFinite hcurrent h.memory)

theorem press_percentage (hfits : c.input.length ≤ c.evaluator.limits.maxLength) :
    Agree (c.press .percentage) (p.press .percentage) := by
  obtain ⟨x, hx, hcurrent⟩ := h.input
  have hzero := unsignedZero_div_hundred hcurrent
  have hfinite := Binary64.isFinite_div hx.isFinite denotes_hundred (by decide)
  rw [Calculator.press, Calculator.percentage, c.evaluator.evaluate_writes hx hfits, Pocket.press]
  exact .ok (congrArg some hzero) (of_plain rfl hfinite hzero h.memory)

/-! ### The other keys -/

theorem toggleSign : Shows c.toggleSign { p with current := p.current.neg } := by
  obtain ⟨x, hx, hcurrent⟩ := h.input
  have hneg {y : Binary64} (hy : y.unsignedZero = p.current.unsignedZero) :
      y.neg.unsignedZero = p.current.neg.unsignedZero := by
    rw [← Binary64.unsignedZero_neg_unsignedZero, hy, Binary64.unsignedZero_neg_unsignedZero]
  unfold Calculator.toggleSign
  split
  next hnil => exact absurd hnil hx.ne_nil
  next t hminus =>
    rw [hminus] at hx
    cases hx with
    | unsigned hbody =>
      exact absurd List.mem_cons_self (Literal.not_mem_of_isUnsigned hbody (by decide))
    | @minus _ y hbody hread =>
      refine ⟨⟨y, .unsigned hbody hread, ?_⟩, h.memory⟩
      have hy := hneg hcurrent
      rwa [Binary64.neg_neg] at hy
  next hminus =>
    refine ⟨⟨x.neg, ?_, hneg hcurrent⟩, h.memory⟩
    generalize c.input = t at hx hminus
    cases hx with
    | unsigned hbody hread => exact .minus hbody hread
    | @minus body => exact absurd rfl (hminus body)

theorem inputNumber?_eq : ∃ x, c.inputNumber? = some x ∧ x.unsignedZero = p.current.unsignedZero := by
  obtain ⟨x, hx, hcurrent⟩ := h.input
  refine ⟨x, ?_, hcurrent⟩
  rw [Calculator.inputNumber?, Text.trim_of_isGraphic hx.isGraphic, hx.reads]

theorem memoryAdd : Shows c.memoryAdd { p with memory := p.memory.add p.current } := by
  obtain ⟨x, hx, hcurrent⟩ := h.inputNumber?_eq
  rw [Calculator.memoryAdd, hx]
  refine ⟨h.input, ?_⟩
  show (c.memory.add x).unsignedZero = (p.memory.add p.current).unsignedZero
  rw [← Binary64.unsignedZero_add, h.memory, hcurrent, Binary64.unsignedZero_add]

theorem memorySubtract : Shows c.memorySubtract { p with memory := p.memory.sub p.current } := by
  obtain ⟨x, hx, hcurrent⟩ := h.inputNumber?_eq
  rw [Calculator.memorySubtract, hx]
  refine ⟨h.input, ?_⟩
  show (c.memory.sub x).unsignedZero = (p.memory.sub p.current).unsignedZero
  rw [← Binary64.unsignedZero_sub, h.memory, hcurrent, Binary64.unsignedZero_sub]

/-- **One key keeps the calculator in step with the pocket calculator.** -/
theorem press (key : Key) (hfits : c.fits key = true) : Agree (c.press key) (p.press key) := by
  cases key with
  | proceed next => exact h.press_proceed next (of_decide_eq_true hfits)
  | calculate time => exact h.press_calculate time (of_decide_eq_true hfits)
  | toggleSign => exact .ok rfl h.toggleSign
  | percentage => exact h.press_percentage (of_decide_eq_true hfits)
  | memoryAdd => exact .ok rfl h.memoryAdd
  | memorySubtract => exact .ok rfl h.memorySubtract
  | memoryRecall => exact .ok rfl (of_plain rfl hfits h.memory h.memory)

end Shows

/-! ## Runs -/

theorem runKeys_simulates {c : Calculator} {p : Pocket} (h : Shows c p) {keys : List Key}
    (hfits : c.fitsAll keys = true) :
    List.Forall₂ (fun s t => SameAnswer s.1 t.1 ∧ Shows s.2 t.2) (runKeys Calculator.press c keys).1
        (runKeys Pocket.press p keys).1 ∧
      InStep (runKeys Calculator.press c keys).2 (runKeys Pocket.press p keys).2 := by
  induction keys generalizing c p with
  | nil => exact ⟨.nil, .ok h⟩
  | cons key keys ih =>
    rw [Calculator.fitsAll, Bool.and_eq_true] at hfits
    obtain ⟨hkey, hrest⟩ := hfits
    have hstep := h.press key hkey
    rw [runKeys, runKeys]
    generalize c.press key = left at hstep hrest
    generalize p.press key = right at hstep
    cases hstep with
    | ok hanswer hnext =>
      obtain ⟨hanswers, hend⟩ := ih hnext hrest
      exact ⟨.cons ⟨hanswer, hnext⟩ hanswers, hend⟩
    | error e => exact ⟨.nil, .error e⟩

theorem Pocket.runKeys_proceed (p : Pocket) (nexts : List NextOperation) :
    (runKeys Pocket.press p (nexts.map .proceed)).2 =
      (NextOperation.chain nexts p.current).map fun x => { p with current := x } := by
  induction nexts generalizing p with
  | nil => rfl
  | cons next nexts ih =>
    rw [List.map_cons, runKeys, Pocket.press, NextOperation.chain, List.foldlM_cons]
    cases next.apply p.current with
    | error e => rfl
    | ok x => exact ih { p with current := x }

theorem InStep.map_inputNumber? {o : Outcome Calculator} {o' : Outcome Pocket} (h : InStep o o') :
    o.map (fun c => c.inputNumber?.map unsignedZero) =
      o'.map fun p => some p.current.unsignedZero := by
  cases h with
  | ok h =>
    obtain ⟨x, hx, hcurrent⟩ := h.inputNumber?_eq
    refine congrArg Except.ok ?_
    dsimp only
    rw [hx, Option.map_some, hcurrent]
  | error => rfl

/-- **Once it shows a result, the calculator is a pocket calculator.** Behind a calculation with the
value `v`, all answers of a run are those of a pocket calculator that holds `v` and the memory; behind
each key the input is a literal for the current number and the memory is the same; and the first
operation that fails ends both runs with the same error. So a chain of operations comes to the
operations applied from the left. -/
theorem calculator_simulates_pocket {c₀ c : Calculator} {time : Nat} {v : Binary64}
    (h : c₀.calculate time = (.ok (some v), c)) (keys : List Key) (hfits : c.fitsAll keys = true) :
    Shows c ⟨v, c.memory⟩ ∧
      List.Forall₂ (fun s t => SameAnswer s.1 t.1 ∧ Shows s.2 t.2) (runKeys Calculator.press c keys).1
        (runKeys Pocket.press ⟨v, c.memory⟩ keys).1 ∧
      InStep (runKeys Calculator.press c keys).2 (runKeys Pocket.press ⟨v, c.memory⟩ keys).2 ∧
      ∀ nexts : List NextOperation, keys = nexts.map .proceed →
        (runKeys Calculator.press c keys).2.map (fun c => c.inputNumber?.map unsignedZero) =
          (NextOperation.chain nexts v).map fun x => some x.unsignedZero := by
  have hshows := Shows.of_calculate h
  obtain ⟨hanswers, hend⟩ := runKeys_simulates hshows hfits
  refine ⟨hshows, hanswers, hend, fun nexts hkeys => ?_⟩
  rw [hend.map_inputNumber?, hkeys, Pocket.runKeys_proceed]
  cases NextOperation.chain nexts v <;> rfl

/-- A run over a product, a turned sign and the memory, behind `1-3`. -/
theorem calculator_simulates_pocket_memory :
    let c₀ := (Calculator.new ⟨.legacy, .standard⟩ 50).setInput "1-3".toList
    let c := (c₀.calculate 0).2
    let four : Operand := ⟨['4'], Decimal.toBinary64 false ⟨4, 0⟩, by decide, by decide +kernel⟩
    let keys := [Key.proceed ⟨.cross, four, 1⟩, .toggleSign, .memoryAdd, .percentage, .memoryRecall]
    c₀.calculate 0 = (.ok (some (Decimal.toBinary64 true ⟨2, 0⟩)), c) ∧ c.fitsAll keys = true ∧
      InStep (runKeys Calculator.press c keys).2
        (runKeys Pocket.press ⟨Decimal.toBinary64 true ⟨2, 0⟩, c.memory⟩ keys).2 := by
  intro c₀ c four keys
  have hcalculate : c₀.calculate 0 = (.ok (some (Decimal.toBinary64 true ⟨2, 0⟩)), c) := by
    have hanswer : (c₀.calculate 0).1 = .ok (some (Decimal.toBinary64 true ⟨2, 0⟩)) := by
      decide +kernel
    exact Prod.ext hanswer rfl
  have hfits : c.fitsAll keys = true := by decide +kernel
  exact ⟨hcalculate, hfits, (calculator_simulates_pocket hcalculate keys hfits).2.2.1⟩

end DeskCalculator
