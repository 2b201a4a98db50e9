import DeskCalculator.Expr.Parser

/-!
# The grammar of expressions

`Derives stratum tokens e` says that the tokens are a sentence of a stratum of the grammar and that
`e` is the tree of the derivation:

* a sum is a product, or a sum, an additive operator and a product;
* a product is a signed operand, or a product, a multiplicative operator and a signed operand;
* a signed operand is a run of signs and a primary, negated if the run has an odd number of minuses;
* a primary is a number, a sum in parentheses, or the word for the root and a sum in parentheses.

The rules for sums and products are left-recursive, so that both associate to the left. The lemmas
here extend a sentence at its right end by one operator and a signed operand, whatever the strata of
the two are.
-/

namespace DeskCalculator

/-- The operators of a sum; they also serve as signs. -/
def Operator.IsAdditive (op : Operator) : Prop := op = .add ∨ op = .subtract

instance (op : Operator) : Decidable op.IsAdditive := inferInstanceAs (Decidable (_ ∨ _))

/-- The operators of a product. -/
def Operator.IsMultiplicative (op : Operator) : Prop := op = .multiply ∨ op = .divide

theorem Operator.isAdditive_or_isMultiplicative (op : Operator) :
    op.IsAdditive ∨ op.IsMultiplicative := by
  cases op <;> simp [IsAdditive, IsMultiplicative]

theorem Operator.IsAdditive.precedence_eq {op : Operator} (h : op.IsAdditive) :
    op.precedence = 1 := by
  rcases h with rfl | rfl <;> rfl

theorem Operator.IsMultiplicative.precedence_eq {op : Operator} (h : op.IsMultiplicative) :
    op.precedence = 2 := by
  rcases h with rfl | rfl <;> rfl

/-- The strata of the grammar, from the one that binds least tightly. -/
inductive Stratum where
  | sum
  | product
  | signed
  | primary

/-- An operand behind a run of signs. -/
def Expr.withSigns (signs : List Operator) (e : Expr) : Expr :=
  if signs.count .subtract % 2 = 1 then .negate e else e

/-- The sentences of a stratum, with their trees. -/
inductive Derives : Stratum → List Token → Expr → Prop
  | sum {l r : List Token} {x y : Expr} {op : Operator} :
      Derives .sum l x → op.IsAdditive → Derives .product r y →
        Derives .sum (l ++ .operator op :: r) (.binary x op y)
  | ofProduct {ts : List Token} {e : Expr} : Derives .product ts e → Derives .sum ts e
  | product {l r : List Token} {x y : Expr} {op : Operator} :
      Derives .product l x → op.IsMultiplicative → Derives .signed r y →
        Derives .product (l ++ .operator op :: r) (.binary x op y)
  | ofSigned {ts : List Token} {e : Expr} : Derives .signed ts e → Derives .product ts e
  | signed {signs : List Operator} {ts : List Token} {e : Expr} :
      (∀ op ∈ signs, op.IsAdditive) → Derives .primary ts e →
        Derives .signed (signs.map .operator ++ ts) (e.withSigns signs)
  | number (value : Binary64) : Derives .primary [.number value] (.number value)
  | group {ts : List Token} {e : Expr} :
      Derives .sum ts e → Derives .primary (.opening :: (ts ++ [.closing])) e
  | root {ts : List Token} {e : Expr} :
      Derives .sum ts e → Derives .primary (.root :: .opening :: (ts ++ [.closing])) (.root e)

namespace Derives

theorem ofPrimary {ts : List Token} {e : Expr} (h : Derives .primary ts e) :
    Derives .signed ts e := by
  have hnone : ∀ op ∈ ([] : List Operator), op.IsAdditive := by simp
  exact signed hnone h

theorem sign_cons {op : Operator} {ts : List Token} {e : Expr} (hop : op.IsAdditive)
    (h : Derives .signed ts e) : ∃ e', Derives .signed (.operator op :: ts) e' := by
  cases h with
  | @signed signs _ _ hsigns hprimary =>
    have hmore : ∀ o ∈ op :: signs, o.IsAdditive := by
      intro o ho
      rcases List.mem_cons.1 ho with rfl | ho
      · exact hop
      · exact hsigns o ho
    exact ⟨_, signed hmore hprimary⟩

theorem sum_append {l r : List Token} {x y : Expr} {op : Operator} (hl : Derives .sum l x)
    (hr : Derives .signed r y) : ∃ e, Derives .sum (l ++ .operator op :: r) e := by
  rcases op.isAdditive_or_isMultiplicative with hop | hop
  · exact ⟨_, sum hl hop (ofSigned hr)⟩
  · cases hl with
    | ofProduct hproduct => exact ⟨_, ofProduct (product hproduct hop hr)⟩
    | sum hleft hadd hright =>
      -- the new operand is taken by the last product of the sum
      rw [List.append_assoc, List.cons_append]
      exact ⟨_, sum hleft hadd (product hright hop hr)⟩

end Derives

end DeskCalculator
