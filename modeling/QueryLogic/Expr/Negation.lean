import QueryLogic.Event
import QueryLogic.Expr.Basic
/-!
Moving negations to the leaves. One pass goes down the expression with a flag that says whether the
place it has reached stands under an odd number of negations. Negations met on the way are dropped
and turn the flag over; under a raised flag a connective gives way to its dual, a truth constant to
the other one, and any other leaf is put under a negation of its own. A node that survives keeps its
location; a negation that is put in has none.
-/
namespace QueryLogic

namespace Literal

/-- The literal of opposite truth, which only truth constants have. -/
def inverse? : Literal → Option Literal
  | bool b => some (bool !b)
  | _ => none

end Literal

namespace Expr

/-- The form in which a leaf stands under a raised flag. -/
def negatedLiteral (loc : Option Location) (v : Literal) : Expr :=
  match v.inverse? with
  | some w => literal loc w
  | none => not none (literal loc v)

/-- Moves negations to the leaves; `negated` says whether the expression itself is negated. -/
def pushNot (negated : Bool) : Expr → Logged Expr
  | literal loc v => pure (if negated then negatedLiteral loc v else literal loc v)
  | column loc n => pure (if negated then not none (column loc n) else column loc n)
  | not _ x => do
    Logged.report (.absorbedNot negated)
    x.pushNot !negated
  | binary loc c l r => do
    let c' := if negated then c.dual else c
    Logged.reportIf negated (.flipped c c')
    let l' ← l.pushNot negated
    let r' ← r.pushNot negated
    pure (binary loc c' l' r')

/-- The expression with every negation moved to a leaf. -/
def pushDown (e : Expr) : Expr := (e.pushNot false).value

/-- The negation of the expression, with every negation moved to a leaf. -/
def negate (e : Expr) : Expr := (e.pushNot true).value

section Equations

variable (loc : Option Location) (v : Literal) (n : ColumnName) (c : Connective) (x l r : Expr)

@[simp] theorem pushDown_literal : (literal loc v).pushDown = literal loc v := rfl

@[simp] theorem pushDown_column : (column loc n).pushDown = column loc n := rfl

@[simp] theorem pushDown_not : (not loc x).pushDown = x.negate := rfl

@[simp] theorem pushDown_binary :
    (binary loc c l r).pushDown = binary loc c l.pushDown r.pushDown := rfl

@[simp] theorem negate_literal : (literal loc v).negate = negatedLiteral loc v := rfl

@[simp] theorem negate_column : (column loc n).negate = not none (column loc n) := rfl

@[simp] theorem negate_not : (not loc x).negate = x.pushDown := rfl

@[simp] theorem negate_binary :
    (binary loc c l r).negate = binary loc c.dual l.negate r.negate := rfl

end Equations

end Expr

end QueryLogic
