import QueryLogic.Expr.Basic
/-!
Equality of conditions as `==` decides it: two expressions are equal when they have the same form,
the same connectives in the same places and leaves of equal value. Locations and the spelling of a
number play no part. The shape of an expression is what is left of it under this equality, and
`beq_iff_shape` says that comparing two expressions compares their shapes. `Alike` is the same
relation with one case for each kind of node, by which two equal expressions are gone through
together.
-/
namespace QueryLogic

/-- What is left of an expression without locations and spellings. -/
inductive Shape
  | literal (value : LiteralValue)
  | column (name : ColumnName)
  | not (operand : Shape)
  | binary (connective : Connective) (left right : Shape)
  deriving DecidableEq, Repr

namespace Expr

def shape : Expr → Shape
  | literal _ v => .literal v.value
  | column _ n => .column n
  | not _ x => .not x.shape
  | binary _ c l r => .binary c l.shape r.shape

/-- Two expressions with nodes of the same kinds in the same places; their locations and the
spelling of their leaves may differ. -/
inductive Alike : Expr → Expr → Prop
  | literal (loc loc' : Option Location) {v w : Literal} (h : v.value = w.value) :
    Alike (literal loc v) (literal loc' w)
  | column (loc loc' : Option Location) (n : ColumnName) : Alike (column loc n) (column loc' n)
  | not (loc loc' : Option Location) {x y : Expr} (h : Alike x y) :
    Alike (not loc x) (not loc' y)
  | binary (loc loc' : Option Location) (c : Connective) {l l' r r' : Expr}
    (left : Alike l l') (right : Alike r r') : Alike (binary loc c l r) (binary loc' c l' r')

theorem alike_of_shape_eq {a b : Expr} (h : a.shape = b.shape) : Alike a b := by
  induction a generalizing b with
  | literal loc v =>
    cases b <;> simp only [shape, Shape.literal.injEq, reduceCtorEq] at h
    exact .literal loc _ h
  | column loc n =>
    cases b <;> simp only [shape, Shape.column.injEq, reduceCtorEq] at h
    subst h
    exact .column loc _ n
  | not loc x ih =>
    cases b <;> simp only [shape, Shape.not.injEq, reduceCtorEq] at h
    exact .not loc _ (ih h)
  | binary loc c l r ihl ihr =>
    cases b <;> simp only [shape, Shape.binary.injEq, reduceCtorEq] at h
    obtain ⟨rfl, left, right⟩ := h
    exact .binary loc _ c (ihl left) (ihr right)

theorem Alike.shape_eq {a b : Expr} (h : Alike a b) : a.shape = b.shape := by
  induction h with
  | literal _ _ h => rw [shape, shape, h]
  | column _ _ n => rfl
  | not _ _ _ ih => rw [shape, shape, ih]
  | binary _ _ c _ _ left right => rw [shape, shape, left, right]

/-- Equality that ignores locations and spellings. -/
def agrees : Expr → Expr → Bool
  | literal _ a, literal _ b => a.agrees b
  | column _ a, column _ b => a == b
  | not _ a, not _ b => a.agrees b
  | binary _ c l r, binary _ c' l' r' => c == c' && l.agrees l' && r.agrees r'
  | _, _ => false

instance : BEq Expr := ⟨agrees⟩

/-- Comparing two expressions compares their shapes. -/
theorem beq_iff_shape {a b : Expr} : (a == b) = true ↔ a.shape = b.shape := by
  change a.agrees b = true ↔ _
  induction a generalizing b with
  | literal loc v => cases b <;> simp [agrees, shape, Literal.agrees_iff]
  | column loc n => cases b <;> simp [agrees, shape]
  | not loc x ih => cases b <;> simp [agrees, shape, ih]
  | binary loc c l r ihl ihr => cases b <;> simp [agrees, shape, ihl, ihr, and_assoc]

instance : EquivBEq Expr where
  rfl := beq_iff_shape.2 rfl
  symm h := beq_iff_shape.2 (beq_iff_shape.1 h).symm
  trans h h' := beq_iff_shape.2 ((beq_iff_shape.1 h).trans (beq_iff_shape.1 h'))

end Expr

end QueryLogic
