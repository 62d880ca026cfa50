import Mathlib.Data.Quot
import Mathlib.Logic.Basic
import QueryLogic.Proofs.ChainMeaning
import QueryLogic.Proofs.NormalShape
/-!
Laws of conditions, and that dropping repeated operands decides the laws of chains. Some laws are
closed to the least congruence that contains them and equality; two conditions are congruent when
one can be turned into the other by the laws, applied anywhere and in both directions. The laws of
chains say that a chain may be nested either way and that an operand which already stands further to
the left may be repeated or left out.

What is proved:
  1. `Congruence.shape_reduced_eq`: conditions that are congruent by the laws of chains reduce to
     one shape, because the laws are equations between normal shapes.
  2. `congruence_withoutRepeats`: dropping repeats is itself a derivation in these laws. The classes
     of congruent conditions are an interpretation with the laws of `LeftRegular`, so the meaning of
     a condition there, its own class, is kept.
  3. `beq_withoutRepeats_iff_congruence`: two conditions are congruent exactly when they are equal
     without their repeats.
-/
namespace QueryLogic

/-- The least congruence that contains equality and some laws. -/
inductive Congruence (law : Expr → Expr → Prop) : Expr → Expr → Prop
  | law {a b : Expr} : law a b → Congruence law a b
  | equal {a b : Expr} : (a == b) = true → Congruence law a b
  | symm {a b : Expr} : Congruence law a b → Congruence law b a
  | trans {a b d : Expr} : Congruence law a b → Congruence law b d → Congruence law a d
  | not (loc : Option Location) {x y : Expr} :
    Congruence law x y → Congruence law (.not loc x) (.not loc y)
  | binary (loc : Option Location) (c : Connective) {l l' r r' : Expr} :
    Congruence law l l' → Congruence law r r' →
    Congruence law (.binary loc c l r) (.binary loc c l' r')

/-- The laws of chains, on nodes without locations. -/
inductive ChainLaw : Expr → Expr → Prop
  | assoc (c : Connective) (x y z : Expr) :
    ChainLaw (.binary none c (.binary none c x y) z) (.binary none c x (.binary none c y z))
  | idem (c : Connective) (x : Expr) : ChainLaw (.binary none c x x) x
  | again (c : Connective) (x y : Expr) :
    ChainLaw (.binary none c (.binary none c x y) x) (.binary none c x y)

theorem ChainLaw.shape_reduced_eq {a b : Expr} :
    ChainLaw a b → a.shape.reduced = b.shape.reduced
  | .assoc c x y z =>
    (Shape.normal_reduced x.shape).merge_assoc (Shape.normal_reduced y.shape)
      (Shape.normal_reduced z.shape) c
  | .idem c x => (Shape.normal_reduced x.shape).merge_self c
  | .again c x y =>
    (Shape.normal_reduced x.shape).merge_again (Shape.normal_reduced y.shape) c

namespace Congruence

variable {law : Expr → Expr → Prop} {a b : Expr}

theorem refl (a : Expr) : Congruence law a a := equal BEq.rfl

theorem of_shape_eq (h : a.shape = b.shape) : Congruence law a b := equal (Expr.beq_iff_shape.2 h)

/-- The laws of chains do not change the reduced shape, wherever they are applied. -/
theorem shape_reduced_eq (h : Congruence ChainLaw a b) : a.shape.reduced = b.shape.reduced := by
  induction h with
  | law h => exact h.shape_reduced_eq
  | equal h => rw [Expr.beq_iff_shape.1 h]
  | symm _ ih => exact ih.symm
  | trans _ _ first second => exact first.trans second
  | not loc _ ih => exact congrArg Shape.not ih
  | binary loc c _ _ left right => exact congrArg₂ (Shape.merge c) left right

/-! ## The interpretation in classes of congruent conditions -/

def setoid (law : Expr → Expr → Prop) : Setoid Expr where
  r := Congruence law
  iseqv := ⟨refl, symm, trans⟩

/-- Conditions up to congruence. -/
abbrev Class (law : Expr → Expr → Prop) : Type := Quotient (setoid law)

/-- The interpretation in which a condition means its own class. -/
def classes (law : Expr → Expr → Prop) : Interpretation (Class law) where
  join c := Quotient.map₂ (Expr.binary none c) fun _ _ hl _ _ hr => binary none c hl hr
  not := Quotient.map (Expr.not none) fun _ _ h => not none h
  literal v := Quotient.mk (setoid law) (.literal none v)
  column n := Quotient.mk (setoid law) (.column none n)
  literal_congr h := Quotient.sound (s := setoid law) (equal h)

theorem eval_classes (law : Expr → Expr → Prop) (e : Expr) :
    (classes law).eval e = Quotient.mk (setoid law) e := by
  have located : ∀ {x y : Expr}, x.shape = y.shape →
      Quotient.mk (setoid law) x = Quotient.mk (setoid law) y :=
    fun h => Quotient.sound (s := setoid law) (of_shape_eq h)
  induction e with
  | literal loc v => exact located rfl
  | column loc n => exact located rfl
  | not loc x ih =>
    rw [Interpretation.eval, ih]
    exact located rfl
  | binary loc c l r ihl ihr =>
    rw [Interpretation.eval, ihl, ihr]
    exact located rfl

/-- Where the nesting of chains is left open by the laws, joining classes is associative. -/
theorem associative_classes (assoc : ∀ c x y z,
    law (.binary none c (.binary none c x y) z) (.binary none c x (.binary none c y z)))
    (c : Connective) : Std.Associative ((classes law).join c) where
  assoc := by
    rintro ⟨x⟩ ⟨y⟩ ⟨z⟩
    exact Quotient.sound (s := setoid law) (Congruence.law (assoc c x y z))

theorem leftRegular_classes (c : Connective) : LeftRegular ((classes ChainLaw).join c) where
  assoc := (associative_classes .assoc c).assoc
  idem := by
    rintro ⟨x⟩
    exact Quotient.sound (s := setoid ChainLaw) (law (.idem c x))
  again := by
    rintro ⟨x⟩ ⟨y⟩
    exact Quotient.sound (s := setoid ChainLaw) (law (.again c x y))

end Congruence

section Repeats

variable [Hashable Expr] [LawfulHashable Expr]

/-- Dropping repeats is a derivation in the laws of chains. -/
theorem congruence_withoutRepeats (e : Expr) : Congruence ChainLaw e.withoutRepeats e := by
  obtain ⟨kept, -⟩ := Interpretation.eval_withoutRepeats_and_total_gather
    Congruence.leftRegular_classes e
  rw [Congruence.eval_classes, Congruence.eval_classes] at kept
  exact Quotient.exact kept

theorem beq_withoutRepeats_iff_congruence {a b : Expr} :
    (a.withoutRepeats == b.withoutRepeats) = true ↔ Congruence ChainLaw a b := by
  constructor
  · intro h
    exact (congruence_withoutRepeats a).symm.trans
      ((Congruence.equal h).trans (congruence_withoutRepeats b))
  · intro h
    rw [Expr.beq_iff_shape, Expr.shape_withoutRepeats, Expr.shape_withoutRepeats]
    exact h.shape_reduced_eq

end Repeats

/-- An inner chain of the other connective that collapses and joins the chain around it. -/
theorem beq_withoutRepeats_iff_congruence_collapsed :
    let a := Expr.column (some ⟨1, 1⟩) ⟨none, "a"⟩
    let b := Expr.column none ⟨none, "b"⟩
    let ab := Expr.binary none .and a b
    let e := Expr.binary none .and a (.binary none .or ab ab)
    Congruence ChainLaw e ab ∧ (e.withoutRepeats == ab.withoutRepeats) = true := by
  intro a b ab e
  have collapsed : Congruence ChainLaw e (.binary none .and a ab) :=
    .binary none .and (.refl a) (.law (.idem .or ab))
  have regrouped : Congruence ChainLaw (.binary none .and a ab)
      (.binary none .and (.binary none .and a a) b) :=
    .symm (.law (.assoc .and a a b))
  have once : Congruence ChainLaw (.binary none .and (.binary none .and a a) b) ab :=
    .binary none .and (.law (.idem .and a)) (.refl b)
  have derivation := collapsed.trans (regrouped.trans once)
  exact ⟨derivation, beq_withoutRepeats_iff_congruence.2 derivation⟩

end QueryLogic
