import QueryLogic.Expr.Basic
/-!
Chains of one connective. The operands of a chain are found by going down from the root through
nodes of that connective only, whichever way they are nested; an expression with another root is a
chain of one. A chain is put together again by joining its operands from the left, the nodes so made
having no location. What holds of single operands and survives joining holds of every chain:
`chain_induction`. A list that a node of the chain puts together from its two sides is put together
from the operands: `flatMap_operands_of_append` and `chain_of_append`.
-/
namespace QueryLogic.Expr

/-- The operands of the chain of `c` at the root, from left to right. -/
def operands (c : Connective) : Expr → List Expr
  | literal loc v => [literal loc v]
  | column loc n => [column loc n]
  | not loc x => [not loc x]
  | binary loc d l r =>
    if d = c then l.operands c ++ r.operands c else [binary loc d l r]

/-- Joins further operands to the first one, from the left. -/
def chain (c : Connective) (first : Expr) (others : List Expr) : Expr :=
  others.foldl (binary none c) first

/-- The chain of some operands; without any there is no expression. -/
def chain? (c : Connective) : List Expr → Option Expr
  | [] => none
  | first :: others => some (chain c first others)

theorem operands_binary (loc : Option Location) (c : Connective) (l r : Expr) :
    (binary loc c l r).operands c = l.operands c ++ r.operands c := if_pos rfl

/-- Induction along the chains of `c`: an expression is its own only operand, or it is a node of `c`
and has the operands of its two sides. -/
@[elab_as_elim]
theorem chain_induction (c : Connective) {P : Expr → Prop}
    (single : ∀ e, e.operands c = [e] → P e)
    (joined : ∀ loc l r, P l → P r → P (binary loc c l r)) (e : Expr) : P e := by
  induction e with
  | binary loc d l r ihl ihr =>
    by_cases same : d = c
    · subst same
      exact joined loc l r ihl ihr
    · exact single _ (if_neg same)
  | _ => exact single _ rfl

theorem operands_ne_nil (c : Connective) (e : Expr) : e.operands c ≠ [] := by
  induction e using chain_induction c with
  | single e alone =>
    rw [alone]
    exact List.cons_ne_nil e []
  | joined loc l r ihl _ =>
    rw [operands_binary]
    exact List.append_ne_nil_of_left_ne_nil ihl _

/-! What is read off a node of a chain as what is read off its left side and then its right side, is
read off the whole chain operand by operand. -/

section Append

variable {α : Type} {c : Connective} {f : Expr → List α}

theorem flatMap_operands_of_append (h : ∀ loc l r, f (binary loc c l r) = f l ++ f r) (e : Expr) :
    (e.operands c).flatMap f = f e := by
  induction e using chain_induction c with
  | single e alone => rw [alone, List.flatMap_singleton]
  | joined loc l r ihl ihr => rw [operands_binary, List.flatMap_append, ihl, ihr, h]

theorem chain_of_append (h : ∀ loc l r, f (binary loc c l r) = f l ++ f r) (first : Expr)
    (others : List Expr) : f (chain c first others) = (first :: others).flatMap f := by
  induction others generalizing first with
  | nil => rw [List.flatMap_singleton]; rfl
  | cons x others ih =>
    calc f (chain c first (x :: others))
        = (binary none c first x :: others).flatMap f := ih (binary none c first x)
      _ = (first :: x :: others).flatMap f := by
        simp only [List.flatMap_cons, h, List.append_assoc]

end Append

end QueryLogic.Expr
