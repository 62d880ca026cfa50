import QueryLogic.Expr.Basic
/-!
Connective nodes that are put together piece by piece. A draft holds what has been given so far; a
piece that is given again replaces the earlier one, and a location may be left out. Finishing a
draft makes the node, or says which of the needed pieces is missing: the connective is asked for
first, then the left operand, then the right one.
-/
namespace QueryLogic

/-- One piece of a connective node, or none; the operands are given as an `α`. -/
inductive Piece (α : Type)
  | connective (c : Connective)
  | left (x : α)
  | right (x : α)
  | location (loc : Location)
  | nothing
  deriving DecidableEq, Repr

/-- The pieces given so far. -/
structure Draft where
  connective : Option Connective
  left : Option Expr
  right : Option Expr
  location : Option Location
  deriving DecidableEq, Repr

/-- Why a draft is not a node. -/
inductive Draft.Missing
  | connective
  | left
  | right
  deriving DecidableEq, Repr

def Draft.Missing.message : Draft.Missing → String
  | connective => "logical binary expression is missing its operator"
  | left => "logical binary expression is missing its left operand"
  | right => "logical binary expression is missing its right operand"

namespace Draft

def blank : Draft := ⟨none, none, none, none⟩

/-- The draft with one more piece, which replaces an earlier one of its sort. -/
def give (d : Draft) : Piece Expr → Draft
  | .connective c => { d with connective := some c }
  | .left x => { d with left := some x }
  | .right x => { d with right := some x }
  | .location loc => { d with location := some loc }
  | .nothing => d

/-- The node, once its connective and both operands are known. -/
def finish (d : Draft) : Except Missing Expr :=
  match d.connective, d.left, d.right with
  | none, _, _ => .error .connective
  | some _, none, _ => .error .left
  | some _, some _, none => .error .right
  | some c, some l, some r => .ok (.binary d.location c l r)

/-- The drafts after the first piece, after the second, and so on. -/
def stages (d : Draft) : List (Piece Expr) → List Draft
  | [] => []
  | p :: ps => d.give p :: stages (d.give p) ps

end Draft

/-- A piece with its operand, if any, looked up; the look-up may fail. -/
def Piece.resolve? {α β : Type} (f : α → Option β) : Piece α → Option (Piece β)
  | .connective c => some (.connective c)
  | .left x => (f x).map .left
  | .right x => (f x).map .right
  | .location loc => some (.location loc)
  | .nothing => some .nothing

end QueryLogic
