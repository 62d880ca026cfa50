import QueryLogic.Expr.Equality
import QueryLogic.Expr.Negation
/-!
Expressions whose negations stand at the leaves. A negation may stand above a column or above a
literal that is no truth constant, and nowhere else. Moving negations to the leaves always ends in
this form and changes nothing of an expression that is in it, locations of negations apart. Running
the pass on its own result is running it once, under a flag that is raised if one of the two was.

What is proved:
  1. `Expr.pushNot_pushNot`: two runs are one, node for node, locations and spellings included.
  2. `Expr.negationNormal_pushNot`: under either flag the result is in this form.
  3. `Expr.shape_pushDown_eq_self`: an expression in this form keeps its shape.
  4. `Expr.negationNormal_and_pushDown_beq_iff`: no other expression keeps its shape, since the form
     is one of shapes.
-/
namespace QueryLogic.Expr

/-! ## Two runs of the pass -/

theorem pushNot_pushNot (a b : Bool) (e : Expr) :
    ((e.pushNot a).value.pushNot b).value = (e.pushNot (a ^^ b)).value := by
  induction e generalizing a with
  | literal loc v =>
    cases a with
    | false => rw [Bool.false_xor]; rfl
    | true =>
      -- a truth constant is inverted twice, any other literal loses the negation it was given
      cases b <;> cases v <;> simp [pushNot, negatedLiteral, Literal.inverse?]
  | column loc n => cases a <;> cases b <;> rfl
  | not loc x ih =>
    show ((x.pushNot !a).value.pushNot b).value = (x.pushNot !(a ^^ b)).value
    rw [ih, Bool.not_xor]
  | binary loc c l r ihl ihr =>
    have connective : (if b then (if a then c.dual else c).dual else if a then c.dual else c) =
        if a ^^ b then c.dual else c := by
      cases a <;> cases b <;> simp
    show binary loc _ ((l.pushNot a).value.pushNot b).value ((r.pushNot a).value.pushNot b).value =
      binary loc _ (l.pushNot (a ^^ b)).value (r.pushNot (a ^^ b)).value
    rw [connective, ihl, ihr]

theorem negate_and_pushDown_twice (e : Expr) :
    e.negate.negate = e.pushDown ∧ e.pushDown.negate = e.negate ∧
      e.negate.pushDown = e.negate ∧ e.pushDown.pushDown = e.pushDown :=
  ⟨pushNot_pushNot true true e, pushNot_pushNot false true e, pushNot_pushNot true false e,
    pushNot_pushNot false false e⟩

/-! ## The normal form -/

/-- A column, or a literal that is no truth constant. -/
def isAtom : Expr → Bool
  | literal _ (.bool _) => false
  | literal _ _ => true
  | column _ _ => true
  | _ => false

/-- Every negation stands directly above an atom. -/
def NegationNormal : Expr → Prop
  | literal _ _ => True
  | column _ _ => True
  | not _ x => x.isAtom = true
  | binary _ _ l r => l.NegationNormal ∧ r.NegationNormal

instance decidableNegationNormal : DecidablePred NegationNormal
  | literal _ _ => .isTrue trivial
  | column _ _ => .isTrue trivial
  | not _ x => inferInstanceAs (Decidable (x.isAtom = true))
  | binary _ _ l r =>
    have := decidableNegationNormal l
    have := decidableNegationNormal r
    inferInstanceAs (Decidable (l.NegationNormal ∧ r.NegationNormal))

theorem isAtom_eq_of_shape_eq {a b : Expr} (h : a.shape = b.shape) : a.isAtom = b.isAtom := by
  cases alike_of_shape_eq h with
  | @literal _ _ v w h => cases v <;> cases w <;> simp_all [isAtom, Literal.value]
  | _ => rfl

theorem NegationNormal.of_shape_eq {a b : Expr} (normal : a.NegationNormal)
    (h : a.shape = b.shape) : b.NegationNormal := by
  replace h := alike_of_shape_eq h
  induction h with
  | literal _ _ _ => exact trivial
  | column _ _ n => exact trivial
  | not _ _ h _ => exact (isAtom_eq_of_shape_eq h.shape_eq).symm.trans normal
  | binary _ _ c _ _ left right => exact ⟨left normal.1, right normal.2⟩

theorem negationNormal_negatedLiteral (loc : Option Location) (v : Literal) :
    (negatedLiteral loc v).NegationNormal := by
  cases v with
  | bool b => exact trivial
  | _ => rfl

theorem negationNormal_pushNot (negated : Bool) (e : Expr) :
    (e.pushNot negated).value.NegationNormal := by
  induction e generalizing negated with
  | literal loc v =>
    cases negated with
    | true => exact negationNormal_negatedLiteral loc v
    | false => exact trivial
  | column loc n =>
    cases negated with
    | true => rfl
    | false => exact trivial
  | not loc x ih => exact ih !negated
  | binary loc c l r ihl ihr => exact ⟨ihl negated, ihr negated⟩

example :
    let e := not (some ⟨1, 1⟩) (literal (some ⟨1, 5⟩) (.bool true))
    ¬ e.NegationNormal ∧ e.pushDown = literal (some ⟨1, 5⟩) (.bool false) := by decide

/-- Only the location of a negation is lost. -/
theorem shape_pushDown_eq_self {e : Expr} (normal : e.NegationNormal) :
    e.pushDown.shape = e.shape := by
  induction e with
  | literal loc v => rfl
  | column loc n => rfl
  | not loc x _ =>
    -- an atom is put under a negation again
    cases x with
    | literal own v =>
      cases v with
      | bool b => cases normal
      | _ => rfl
    | column own n => rfl
    | not own y => cases normal
    | binary own c l r => cases normal
  | binary loc c l r ihl ihr =>
    show Shape.binary c l.pushDown.shape r.pushDown.shape = Shape.binary c l.shape r.shape
    rw [ihl normal.1, ihr normal.2]

theorem negationNormal_and_pushDown_beq_iff (e : Expr) :
    e.pushDown.NegationNormal ∧ e.negate.NegationNormal ∧
      ((e.pushDown == e) = true ↔ e.NegationNormal) := by
  have normal : e.pushDown.NegationNormal := negationNormal_pushNot false e
  refine ⟨normal, negationNormal_pushNot true e, ?_⟩
  rw [beq_iff_shape]
  constructor
  · intro h
    exact normal.of_shape_eq h
  · intro h
    exact shape_pushDown_eq_self h

end QueryLogic.Expr
