import QueryLogic.Expr.Negation
import QueryLogic.Proofs.KeptLeaves
/-!
The columns of rewritten conditions. A walk comes by the columns from left to right, each as often as
it stands there. Moving negations to the leaves flips connectives and takes negations away or puts them
in, but leaves every column at its position; taking a chain apart and putting it together changes how
its operands are nested, but not their order. So none of this changes the list of columns.

What is proved:
  1. `Expr.columns_not` and `Expr.columns_binary`: the columns of a node are those of its operands.
  2. `Expr.columns_pushNot`: moving negations to the leaves keeps the columns, for either flag.
  3. `Expr.flatMap_columns_operands` and `Expr.columns_chain`: the columns of a chain are those of its
     operands, whether it is taken apart or put together.
  4. `Expr.columns_negate_and_operands_and_chain?`: all of this together.
-/
namespace QueryLogic.Expr

theorem columns_not (loc : Option Location) (x : Expr) :
    (not loc x).columns = x.columns := rfl

theorem columns_binary (loc : Option Location) (c : Connective) (l r : Expr) :
    (binary loc c l r).columns = l.columns ++ r.columns := by
  rw [columns_eq, columns_eq, columns_eq, leaves, List.filterMap_append]

/-! ## Negations -/

theorem columns_negatedLiteral (loc : Option Location) (v : Literal) :
    (negatedLiteral loc v).columns = [] := by
  cases v <;> rfl

/-- The pass takes no column away, puts none in and moves none, whatever the flag. -/
theorem columns_pushNot (negated : Bool) (e : Expr) :
    (e.pushNot negated).value.columns = e.columns := by
  induction e generalizing negated with
  | literal loc v =>
    cases negated with
    | true => exact columns_negatedLiteral loc v
    | false => rfl
  | column loc n => cases negated <;> rfl
  | not loc x ih =>
    rw [columns_not]
    exact ih !negated
  | binary loc c l r ihl ihr =>
    rw [columns_binary, ← ihl negated, ← ihr negated]
    exact columns_binary loc _ _ _

/-! ## Chains -/

theorem flatMap_columns_operands (c : Connective) (e : Expr) :
    (e.operands c).flatMap columns = e.columns :=
  flatMap_operands_of_append (fun loc l r => columns_binary loc c l r) e

theorem columns_chain (c : Connective) (first : Expr) (others : List Expr) :
    (chain c first others).columns = (first :: others).flatMap columns :=
  chain_of_append (fun loc l r => columns_binary loc c l r) first others

/-- Neither the two passes for negations nor the two operations on chains change the columns of a
condition, their order or how often each is listed. -/
theorem columns_negate_and_operands_and_chain? (e : Expr) :
    e.negate.columns = e.columns ∧ e.pushDown.columns = e.columns ∧
      (∀ c, e.columns = (e.operands c).flatMap columns) ∧
      ∀ c first others, (chain? c (first :: others)).map columns =
        some ((first :: others).flatMap columns) := by
  refine ⟨columns_pushNot true e, columns_pushNot false e, ?_, ?_⟩
  · intro c
    exact (flatMap_columns_operands c e).symm
  · intro c first others
    exact congrArg some (columns_chain c first others)

end QueryLogic.Expr
