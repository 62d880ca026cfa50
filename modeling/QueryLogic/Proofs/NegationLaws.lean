import QueryLogic.Expr.Negation
import QueryLogic.Proofs.Laws
/-!
Laws of negation beside the laws of chains, and that the two passes together decide them all. The
laws of negation say that it is its own inverse and exchanges the connectives and the truth
constants. Moving negations to the leaves and then dropping repeats gives one result for all
conditions that are congruent by both kinds of laws, in whichever order the laws are applied: a
negation above a chain turns over the laws of that chain, but each of them holds of either
connective.

What is proved:
  1. `Expr.shape_pushNot`: moving negations to the leaves is an operation on shapes.
  2. `Congruence.shape_pushNot_eq`: conditions that are congruent by the laws of negation have one
     shape under a raised flag, and one under a lowered flag.
  3. `congruence_pushDown`: moving negations to the leaves is itself a derivation in the laws of
     negation, since the classes of congruent conditions satisfy `DeMorgan`.
  4. `congruence_iff_beq_pushDown_and_beq_negate`: two conditions are congruent by these laws exactly
     when they are equal with their negations at the leaves, and exactly when their negations are.
  5. `Congruence.shape_reduced_pushNot_eq`: under both kinds of laws it is the reduced shape that
     congruent conditions have in common.
  6. `congruence_iff_beq_withoutRepeats_pushDown`: two conditions are congruent exactly when both
     passes make them equal, and dropping repeats beforehand makes no difference.
-/
namespace QueryLogic

/-! ## Shapes with their negations at the leaves -/

namespace Shape

/-- The shape of a literal under a raised flag. -/
def negatedLiteral : LiteralValue → Shape
  | .bool b => literal (.bool !b)
  | v => not (literal v)

/-- Moves negations to the leaves; `negated` says whether the shape itself is negated. -/
def pushNot (negated : Bool) : Shape → Shape
  | literal v => if negated then negatedLiteral v else literal v
  | column n => if negated then not (column n) else column n
  | not x => x.pushNot !negated
  | binary c l r =>
    binary (if negated then c.dual else c) (l.pushNot negated) (r.pushNot negated)

end Shape

namespace Expr

theorem shape_negatedLiteral (loc : Option Location) (v : Literal) :
    (negatedLiteral loc v).shape = Shape.negatedLiteral v.value := by
  cases v <;> rfl

theorem shape_pushNot (negated : Bool) (e : Expr) :
    (e.pushNot negated).value.shape = e.shape.pushNot negated := by
  induction e generalizing negated with
  | literal loc v =>
    cases negated with
    | true => exact shape_negatedLiteral loc v
    | false => rfl
  | column loc n => cases negated <;> rfl
  | not loc x ih => exact ih !negated
  | binary loc c l r ihl ihr =>
    show Shape.binary (if negated then c.dual else c) _ _ = _
    rw [ihl, ihr]
    rfl

theorem shape_pushDown (e : Expr) : e.pushDown.shape = e.shape.pushNot false :=
  shape_pushNot false e

theorem shape_negate (e : Expr) : e.negate.shape = e.shape.pushNot true :=
  shape_pushNot true e

end Expr

/-! ## The laws -/

/-- The laws of negation, on nodes without locations. -/
inductive NegationLaw : Expr → Expr → Prop
  | not_not (x : Expr) : NegationLaw (.not none (.not none x)) x
  | not_binary (c : Connective) (x y : Expr) :
    NegationLaw (.not none (.binary none c x y))
      (.binary none c.dual (.not none x) (.not none y))
  | not_bool (b : Bool) :
    NegationLaw (.not none (.literal none (.bool b))) (.literal none (.bool !b))

/-- The laws of chains and those of negation. -/
inductive ConditionLaw (a b : Expr) : Prop
  | chain (h : ChainLaw a b)
  | negation (h : NegationLaw a b)

theorem NegationLaw.shape_pushNot_eq {a b : Expr} (h : NegationLaw a b) (negated : Bool) :
    a.shape.pushNot negated = b.shape.pushNot negated := by
  cases h with
  | not_not x =>
    show b.shape.pushNot (!!negated) = b.shape.pushNot negated
    rw [Bool.not_not]
  | not_binary c x y => cases negated <;> simp [Expr.shape, Shape.pushNot]
  | not_bool b =>
    cases negated <;> simp [Expr.shape, Shape.pushNot, Shape.negatedLiteral, Literal.value]

/-- Under either flag the two sides of a law of chains reduce to one shape: under a raised one it
is the same law of the dual connective. -/
theorem ChainLaw.shape_reduced_pushNot_eq {a b : Expr} (h : ChainLaw a b) (negated : Bool) :
    (a.shape.pushNot negated).reduced = (b.shape.pushNot negated).reduced := by
  have normal : ∀ x : Expr, (x.shape.pushNot negated).reduced.Normal :=
    fun x => Shape.normal_reduced _
  cases h with
  | assoc c x y z => exact (normal x).merge_assoc (normal y) (normal z) _
  | idem c x => exact (normal b).merge_self _
  | again c x y => exact (normal x).merge_again (normal y) _

namespace Congruence

variable {law law' : Expr → Expr → Prop} {a b : Expr}

theorem mono (sub : ∀ a b, law a b → law' a b) (h : Congruence law a b) :
    Congruence law' a b := by
  induction h with
  | law h => exact .law (sub _ _ h)
  | equal h => exact .equal h
  | symm _ ih => exact ih.symm
  | trans _ _ first second => exact first.trans second
  | not loc _ ih => exact .not loc ih
  | binary loc c _ _ left right => exact .binary loc c left right

/-- The laws of negation do not change the shape under either flag. -/
theorem shape_pushNot_eq (h : Congruence NegationLaw a b) (negated : Bool) :
    a.shape.pushNot negated = b.shape.pushNot negated := by
  induction h generalizing negated with
  | law h => exact h.shape_pushNot_eq negated
  | equal h => rw [Expr.beq_iff_shape.1 h]
  | symm _ ih => exact (ih negated).symm
  | trans _ _ first second => exact (first negated).trans (second negated)
  | not loc _ ih => exact ih !negated
  | binary loc c _ _ left right => exact congrArg₂ (Shape.binary _) (left negated) (right negated)

/-- A negation on both sides can be taken away, by putting another one above it. -/
theorem not_congr_iff :
    Congruence NegationLaw (.not none a) (.not none b) ↔ Congruence NegationLaw a b := by
  have twice : ∀ x, Congruence NegationLaw (.not none (.not none x)) x :=
    fun x => law (.not_not x)
  constructor
  · intro h
    exact (twice a).symm.trans ((h.not none).trans (twice b))
  · intro h
    exact h.not none

/-- The flag is a parameter of the induction, since a negation turns it over for its operand. -/
theorem shape_reduced_pushNot_eq (h : Congruence ConditionLaw a b) (negated : Bool) :
    (a.shape.pushNot negated).reduced = (b.shape.pushNot negated).reduced := by
  induction h generalizing negated with
  | law h =>
    cases h with
    | chain h => exact h.shape_reduced_pushNot_eq negated
    | negation h => rw [h.shape_pushNot_eq negated]
  | equal h => rw [Expr.beq_iff_shape.1 h]
  | symm _ ih => exact (ih negated).symm
  | trans _ _ first second => exact (first negated).trans (second negated)
  | not loc _ ih => exact ih !negated
  | binary loc c _ _ left right => exact congrArg₂ (Shape.merge _) (left negated) (right negated)

/-! ## The passes as derivations -/

theorem deMorgan_classes : (classes NegationLaw).DeMorgan where
  not_not := by
    rintro ⟨x⟩
    exact Quotient.sound (s := setoid NegationLaw) (law (.not_not x))
  not_join := by
    rintro c ⟨x⟩ ⟨y⟩
    exact Quotient.sound (s := setoid NegationLaw) (law (.not_binary c x y))
  not_true := Quotient.sound (s := setoid NegationLaw) (law (.not_bool true))

end Congruence

/-- Moving negations to the leaves is a derivation in the laws of negation. -/
theorem congruence_pushDown (e : Expr) : Congruence NegationLaw e.pushDown e := by
  have kept := Congruence.deMorgan_classes.eval_pushNot false e
  rw [Congruence.eval_classes, if_neg Bool.false_ne_true, Congruence.eval_classes] at kept
  exact Quotient.exact kept

theorem congruence_iff_beq_pushDown {a b : Expr} :
    Congruence NegationLaw a b ↔ (a.pushDown == b.pushDown) = true := by
  constructor
  · intro h
    rw [Expr.beq_iff_shape, Expr.shape_pushDown, Expr.shape_pushDown]
    exact h.shape_pushNot_eq false
  · intro h
    exact (congruence_pushDown a).symm.trans ((Congruence.equal h).trans (congruence_pushDown b))

/-- Negating a condition is moving the negations of its negation to the leaves, so the laws decide
both passes alike. -/
theorem congruence_iff_beq_pushDown_and_beq_negate (a b : Expr) :
    (Congruence NegationLaw a b ↔ (a.pushDown == b.pushDown) = true) ∧
      (Congruence NegationLaw a b ↔ (a.negate == b.negate) = true) := by
  refine ⟨congruence_iff_beq_pushDown, ?_⟩
  calc Congruence NegationLaw a b
    _ ↔ Congruence NegationLaw (.not none a) (.not none b) := Congruence.not_congr_iff.symm
    _ ↔ ((Expr.not none a).pushDown == (Expr.not none b).pushDown) = true :=
      congruence_iff_beq_pushDown
    _ ↔ (a.negate == b.negate) = true := Iff.rfl

section Repeats

variable [Hashable Expr] [LawfulHashable Expr]

theorem congruence_withoutRepeats_pushDown (e : Expr) :
    Congruence ConditionLaw e.pushDown.withoutRepeats e := by
  have dropped := (congruence_withoutRepeats e.pushDown).mono fun _ _ => ConditionLaw.chain
  have pushed := (congruence_pushDown e).mono fun _ _ => ConditionLaw.negation
  exact dropped.trans pushed

theorem beq_withoutRepeats_pushDown {a b : Expr} (h : Congruence ConditionLaw a b) :
    (a.pushDown.withoutRepeats == b.pushDown.withoutRepeats) = true := by
  rw [Expr.beq_iff_shape, Expr.shape_withoutRepeats, Expr.shape_withoutRepeats,
    Expr.shape_pushDown, Expr.shape_pushDown]
  exact h.shape_reduced_pushNot_eq false

theorem congruence_iff_beq_withoutRepeats_pushDown (a b : Expr) :
    (Congruence ConditionLaw a b ↔
        (a.pushDown.withoutRepeats == b.pushDown.withoutRepeats) = true) ∧
      (a.withoutRepeats.pushDown.withoutRepeats == a.pushDown.withoutRepeats) = true := by
  refine ⟨⟨beq_withoutRepeats_pushDown, ?_⟩, ?_⟩
  · intro h
    exact (congruence_withoutRepeats_pushDown a).symm.trans
      ((Congruence.equal h).trans (congruence_withoutRepeats_pushDown b))
  · apply beq_withoutRepeats_pushDown
    exact (congruence_withoutRepeats a).mono fun _ _ => ConditionLaw.chain

end Repeats

/-- A negation that hides a chain from the chain around it, which repeats one of its operands. -/
theorem congruence_iff_beq_withoutRepeats_pushDown_hidden :
    let a := Expr.column (some ⟨1, 1⟩) ⟨none, "a"⟩
    let b := Expr.column none ⟨none, "b"⟩
    let neither := Expr.not none (.binary none .or a b)
    let e := Expr.binary none .and neither (.not none a)
    Congruence ConditionLaw e neither ∧
      (e.pushDown.withoutRepeats == neither.pushDown.withoutRepeats) = true ∧
      (e.withoutRepeats.pushDown.withoutRepeats == e.pushDown.withoutRepeats) = true := by
  intro a b neither e
  let pushed := Expr.binary none .and (.not none a) (.not none b)
  have opened : Congruence ConditionLaw neither pushed :=
    .law (.negation (.not_binary .or a b))
  have widened : Congruence ConditionLaw e (.binary none .and pushed (.not none a)) :=
    .binary none .and opened (.refl _)
  have once : Congruence ConditionLaw (.binary none .and pushed (.not none a)) pushed :=
    .law (.chain (.again .and (.not none a) (.not none b)))
  have derivation := widened.trans (once.trans opened.symm)
  have decided := congruence_iff_beq_withoutRepeats_pushDown e neither
  exact ⟨derivation, decided.1.1 derivation, decided.2⟩

end QueryLogic
