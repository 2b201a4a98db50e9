import DeskCalculator.Proofs.Row.Basic
import Mathlib.Logic.ExistsUnique

/-!
# Tiers of operators

The operators have four tiers: `*` binds loosest, then `/`, then `+`, and `-` binds tightest. A tree
over the operands of a row is tiered if every node is the last of the loosest operators that it spans
(`Row.IsCut`), so that operators of one tier associate to the left. Each row has one such tree
(`Row.existsUnique_tree`), and its value is computed from the left (`Row.Tree.eval`).
-/

namespace DeskCalculator

theorem append_cons_eq_append_cons {α : Type} {l r l' r' : List α} {x x' : α}
    (h : l ++ x :: r = l' ++ x' :: r') :
    (l = l' ∧ x = x' ∧ r = r') ∨ (∃ m, l' = l ++ x :: m ∧ r = m ++ x' :: r') ∨
      ∃ m, l = l' ++ x' :: m ∧ r' = m ++ x :: r := by
  rcases List.append_eq_append_iff.1 h with ⟨m, hl, hr⟩ | ⟨m, hl, hr⟩
  · cases m with
    | nil => exact .inl ⟨by rw [hl, List.append_nil], List.cons.inj hr⟩
    | cons y m =>
      obtain ⟨rfl, hrest⟩ := List.cons.inj hr
      exact .inr (.inl ⟨m, hl, hrest⟩)
  · cases m with
    | nil =>
      obtain ⟨hx, hr⟩ := List.cons.inj hr
      exact .inl ⟨by rw [hl, List.append_nil], hx.symm, hr.symm⟩
    | cons y m =>
      obtain ⟨rfl, hrest⟩ := List.cons.inj hr
      exact .inr (.inr ⟨m, hl, hrest⟩)

/-- How tightly an operator of a row binds, beginning with the loosest. -/
def Operator.tier : Operator → Nat
  | multiply => 0
  | divide => 1
  | add => 2
  | subtract => 3

theorem Operator.tier_injective {o op : Operator} (h : o.tier = op.tier) : o = op := by
  cases o <;> cases op <;> first | rfl | exact absurd h (by decide)

namespace Row

/-- An operator between two rows is the last of the loosest ones. -/
structure IsCut (left : Row) (j : Joint) (right : Row) : Prop where
  left_le : ∀ o ∈ left.ops, j.op.tier ≤ o.tier
  lt_right : ∀ o ∈ right.ops, j.op.tier < o.tier

theorem join_assoc (c : Row) (j : Joint) (d : Row) (k : Joint) (e : Row) :
    (c.join j d).join k e = c.join j (d.join k e) := by
  simp [join]

theorem exists_isCut {c : Row} (h : c.links ≠ []) :
    ∃ left j right, c = join left j right ∧ IsCut left j right := by
  obtain ⟨first, links⟩ := c
  induction links generalizing first with
  | nil => exact absurd rfl h
  | cons k links ih =>
    obtain ⟨j, x⟩ := k
    have hjoin : (⟨first, (j, x) :: links⟩ : Row) = join ⟨first, []⟩ j ⟨x, links⟩ := rfl
    by_cases hlinks : links = []
    · refine ⟨_, j, _, hjoin, nofun, ?_⟩
      subst hlinks
      nofun
    · obtain ⟨left, j', right, heq, hcut⟩ := ih x hlinks
      rw [hjoin, heq]
      by_cases htier : j'.op.tier ≤ j.op.tier
      · -- the new operator is no looser, and the cut stays
        refine ⟨join ⟨first, []⟩ j left, j', right, (join_assoc _ _ _ _ _).symm, ?_, hcut.lt_right⟩
        rw [ops_join]
        intro o ho
        rcases List.mem_cons.1 ho with rfl | ho
        · exact htier
        · exact hcut.left_le o ho
      · refine ⟨⟨first, []⟩, j, join left j' right, rfl, nofun, ?_⟩
        rw [ops_join]
        intro o ho
        have hlt : j'.op.tier ≤ o.tier := by
          rcases List.mem_append.1 ho with ho | ho
          · exact hcut.left_le o ho
          · rcases List.mem_cons.1 ho with rfl | ho
            · exact Nat.le_refl _
            · exact Nat.le_of_lt (hcut.lt_right o ho)
        omega

theorem IsCut.not_before {left left' right right' : Row} {j j' : Joint} (h : IsCut left j right)
    (h' : IsCut left' j' right') {x x' : Operand} {links : List (Joint × Operand)}
    (hleft : left'.links = left.links ++ (j, x) :: links)
    (hright : right.links = links ++ (j', x') :: right'.links) : False := by
  have hle := h'.left_le j.op (by simp [ops, hleft])
  have hlt := h.lt_right j'.op (by simp [ops, hright])
  omega

theorem IsCut.unique {left left' right right' : Row} {j j' : Joint} (h : IsCut left j right)
    (h' : IsCut left' j' right') (heq : join left j right = join left' j' right') :
    left = left' ∧ j = j' ∧ right = right' := by
  obtain ⟨hfirst, hlinks⟩ := Row.mk.inj heq
  rcases append_cons_eq_append_cons hlinks with
    ⟨hleft, hhead, hright⟩ | ⟨links, hleft, hright⟩ | ⟨links, hleft, hright⟩
  · obtain ⟨hj, hx⟩ := Prod.mk.inj hhead
    exact ⟨Row.ext hfirst hleft, hj, Row.ext hx hright⟩
  · exact (h.not_before h' hleft hright).elim
  · exact (h'.not_before h hleft hright).elim

/-! ## Trees -/

/-- A tree over the operands of a row. -/
inductive Tree where
  | operand (x : Operand)
  | node (left : Tree) (joint : Joint) (right : Tree)

namespace Tree

/-- The row that a tree spans. -/
def row : Tree → Row
  | operand x => ⟨x, []⟩
  | node left j right => left.row.join j right.row

/-- Each node is the last of the loosest operators that it spans. -/
def IsTiered : Tree → Prop
  | operand _ => True
  | node left j right => left.IsTiered ∧ right.IsTiered ∧ IsCut left.row j right.row

/-- The value of a tree, computed from the left. -/
def eval : Tree → Outcome Binary64
  | operand x => if x.literal.value.isFinite then .ok x.literal.value else .error .overflow
  | node left j right => do
    let x ← left.eval
    let y ← right.eval
    j.op.apply x y

theorem exists_isTiered (c : Row) : ∃ e : Tree, e.IsTiered ∧ e.row = c := by
  induction hlength : c.links.length using Nat.strongRecOn generalizing c with
  | ind length ih =>
    by_cases hlinks : c.links = []
    · refine ⟨operand c.first, trivial, ?_⟩
      exact Row.ext rfl hlinks.symm
    · obtain ⟨left, j, right, rfl, hcut⟩ := exists_isCut hlinks
      rw [length_links_join] at hlength
      obtain ⟨e, he, rfl⟩ := ih _ (by omega) left rfl
      obtain ⟨e', he', rfl⟩ := ih _ (by omega) right rfl
      exact ⟨node e j e', ⟨he, he', hcut⟩, rfl⟩

theorem IsTiered.unique {e e' : Tree} (h : e.IsTiered) (h' : e'.IsTiered) (heq : e.row = e'.row) :
    e = e' := by
  induction e generalizing e' with
  | operand x =>
    cases e' with
    | operand x' => rw [(Row.mk.inj heq).1]
    | node left j right => exact absurd (congrArg (·.links.length) heq) (by simp [row, join])
  | node left j right ihleft ihright =>
    cases e' with
    | operand x => exact absurd (congrArg (·.links.length) heq) (by simp [row, join])
    | node left' j' right' =>
      obtain ⟨hleft, hright, hcut⟩ := h
      obtain ⟨hleft', hright', hcut'⟩ := h'
      obtain ⟨hl, rfl, hr⟩ := hcut.unique hcut' heq
      rw [ihleft hleft hleft' hl, ihright hright hright' hr]

end Tree

/-- **A row has one tiered tree.** -/
theorem existsUnique_tree (c : Row) : ∃! e : Tree, e.IsTiered ∧ e.row = c := by
  obtain ⟨e, he, hrow⟩ := Tree.exists_isTiered c
  refine ⟨e, ⟨he, hrow⟩, ?_⟩
  rintro e' ⟨he', hrow'⟩
  exact he'.unique he (hrow'.trans hrow.symm)

end Row

end DeskCalculator
