import QueryLogic.ColumnName
import QueryLogic.Connective
import QueryLogic.Literal
import QueryLogic.Location
/-!
Conditions of a query: constants, columns, negations, and two operands joined by a connective. Every
node may say where it was written. Equality `=` of expressions is identity node for node, locations
and spellings included; the equality that ignores both is in `QueryLogic.Expr.Equality`.
-/
namespace QueryLogic

inductive Expr
  | literal (loc : Option Location) (value : Literal)
  | column (loc : Option Location) (name : ColumnName)
  | not (loc : Option Location) (operand : Expr)
  | binary (loc : Option Location) (connective : Connective) (left right : Expr)
  deriving DecidableEq, Repr

namespace Expr

inductive Kind
  | literal
  | column
  | not
  | connective
  deriving DecidableEq, Repr

def kind : Expr → Kind
  | literal _ _ => .literal
  | column _ _ => .column
  | not _ _ => .not
  | binary _ _ _ _ => .connective

def location : Expr → Option Location
  | literal loc _ => loc
  | column loc _ => loc
  | not loc _ => loc
  | binary loc _ _ _ => loc

/-- The same expression with another location at its root. -/
def withLocation (loc : Option Location) : Expr → Expr
  | literal _ v => literal loc v
  | column _ n => column loc n
  | not _ x => not loc x
  | binary _ c l r => binary loc c l r

/-- The parts of a connective at the root. -/
def binary? : Expr → Option (Connective × Expr × Expr)
  | binary _ c l r => some (c, l, r)
  | _ => none

def negated? : Expr → Option Expr
  | not _ x => some x
  | _ => none

/-- The number of nodes, counted as a tree. -/
def size : Expr → Nat
  | literal _ _ => 1
  | column _ _ => 1
  | not _ x => x.size + 1
  | binary _ _ l r => l.size + r.size + 1

/-- The columns and literals from left to right, each as its own node. -/
def leaves : Expr → List Expr
  | literal loc v => [literal loc v]
  | column loc n => [column loc n]
  | not _ x => x.leaves
  | binary _ _ l r => l.leaves ++ r.leaves

theorem size_pos (e : Expr) : 0 < e.size := by cases e <;> simp [size]

@[simp] theorem location_withLocation (loc : Option Location) (e : Expr) :
    (e.withLocation loc).location = loc := by cases e <;> rfl

@[simp] theorem size_withLocation (loc : Option Location) (e : Expr) :
    (e.withLocation loc).size = e.size := by cases e <;> rfl

end Expr

end QueryLogic
