import QueryLogic.Expr.Equality
import QueryLogic.Expr.Negation
/-!
The meaning of conditions, and that moving negations to the leaves keeps it. An interpretation says
what the parts of a condition stand for in some domain of truth values; nothing is asked of the
domain beyond the laws named in a theorem, so it may be the two truth values, the three of a query
language with unknown values, or the outcomes of an evaluation from the left that can fail.

What is proved:
  1. `eval_eq_of_shape_eq`: the meaning of a condition depends on its shape alone, hence equal
     conditions mean the same.
  2. `eval_pushDown_and_eval_negate`: where negation is its own inverse and exchanges the
     connectives and the two truth constants, pushing negations down keeps the meaning and negating
     a condition negates it.

`Outcome` is a domain of four values with which the laws hold: evaluation goes from left to right,
leaves out what no longer matters, and stops at a failure.
-/
namespace QueryLogic

universe u

/-- What the parts of a condition stand for. Literals that agree stand for one truth value, so
neither the location nor the spelling of a leaf has a meaning. -/
structure Interpretation (T : Type u) where
  join : Connective → T → T → T
  not : T → T
  literal : Literal → T
  column : ColumnName → T
  literal_congr : ∀ {v w : Literal}, v.agrees w = true → literal v = literal w

namespace Interpretation

variable {T : Type u} (I : Interpretation T)

/-- The truth value of a condition. -/
def eval : Expr → T
  | .literal _ v => I.literal v
  | .column _ n => I.column n
  | .not _ x => I.not (eval x)
  | .binary _ c l r => I.join c (eval l) (eval r)

theorem eval_eq_of_shape_eq {a b : Expr} (h : a.shape = b.shape) : I.eval a = I.eval b := by
  replace h := Expr.alike_of_shape_eq h
  induction h with
  | literal _ _ h => exact I.literal_congr (Literal.agrees_iff.2 h)
  | column _ _ n => rfl
  | not _ _ _ ih => rw [eval, eval, ih]
  | binary _ _ c _ _ left right => rw [eval, eval, left, right]

/-! ## Negation -/

/-- Negation is its own inverse and exchanges the connectives and the truth constants. -/
structure DeMorgan : Prop where
  not_not : ∀ x, I.not (I.not x) = x
  not_join : ∀ c x y, I.not (I.join c x y) = I.join c.dual (I.not x) (I.not y)
  not_true : I.not (I.literal (.bool true)) = I.literal (.bool false)

variable {I}

theorem DeMorgan.not_bool (h : I.DeMorgan) (b : Bool) :
    I.not (I.literal (.bool b)) = I.literal (.bool !b) := by
  cases b with
  | true => exact h.not_true
  | false =>
    show I.not (I.literal (.bool false)) = I.literal (.bool true)
    rw [← h.not_true, h.not_not]

theorem DeMorgan.eval_negatedLiteral (h : I.DeMorgan) (loc : Option Location) (v : Literal) :
    I.eval (Expr.negatedLiteral loc v) = I.not (I.literal v) := by
  cases v with
  | bool b => exact (h.not_bool b).symm
  | _ => rfl

/-- Under a raised flag the pass yields the negation, otherwise the condition itself. -/
theorem DeMorgan.eval_pushNot (h : I.DeMorgan) (negated : Bool) (e : Expr) :
    I.eval (e.pushNot negated).value = if negated then I.not (I.eval e) else I.eval e := by
  induction e generalizing negated with
  | literal loc v =>
    cases negated with
    | true => exact h.eval_negatedLiteral loc v
    | false => rfl
  | column loc n => cases negated <;> rfl
  | not loc x ih =>
    -- the negation is dropped and its operand meets the other flag
    have flipped : I.eval ((Expr.not loc x).pushNot negated).value =
        if !negated then I.not (I.eval x) else I.eval x := ih !negated
    rw [flipped, eval]
    cases negated with
    | true => simp [h.not_not]
    | false => simp
  | binary loc c l r ihl ihr =>
    simp only [Expr.pushNot, Logged.value_bind, Logged.value_pure, eval, ihl, ihr]
    cases negated with
    | true => simp [h.not_join]
    | false => simp

theorem eval_pushDown_and_eval_negate (I : Interpretation T) (h : I.DeMorgan) (e : Expr) :
    I.eval e.pushDown = I.eval e ∧ I.eval e.negate = I.not (I.eval e) :=
  ⟨h.eval_pushNot false e, h.eval_pushNot true e⟩

end Interpretation

/-! ## Evaluation from the left with unknown values and failures -/

/-- How the evaluation of a condition may end. -/
inductive Outcome
  | no
  | unknown
  | yes
  | failed
  deriving DecidableEq, Repr

namespace Outcome

def negation : Outcome → Outcome
  | no => yes
  | yes => no
  | unknown => unknown
  | failed => failed

/-- Both operands: a left one that is false or fails decides alone. -/
def both : Outcome → Outcome → Outcome
  | no, _ => no
  | failed, _ => failed
  | yes, y => y
  | unknown, no => no
  | unknown, failed => failed
  | unknown, _ => unknown

/-- One operand of the two: a left one that is true or fails decides alone. -/
def either : Outcome → Outcome → Outcome
  | yes, _ => yes
  | failed, _ => failed
  | no, y => y
  | unknown, yes => yes
  | unknown, failed => failed
  | unknown, _ => unknown

def join : Connective → Outcome → Outcome → Outcome
  | .and => both
  | .or => either

/-- A truth constant is decided, a missing value is not, and any other literal is no truth value. -/
def ofLiteral : Literal → Outcome
  | .bool true => yes
  | .bool false => no
  | .null => unknown
  | _ => failed

/-- Evaluation from the left, given how the evaluation of each column ends. -/
def fromLeft (column : ColumnName → Outcome) : Interpretation Outcome where
  join := join
  not := negation
  literal := ofLiteral
  column := column
  literal_congr {v w} h := by
    cases v <;> cases w <;> simp_all [ofLiteral, Literal.agrees]

theorem fromLeft_deMorgan (column : ColumnName → Outcome) : (fromLeft column).DeMorgan where
  not_not x := by cases x <;> rfl
  not_join c x y := by cases c <;> cases x <;> cases y <;> rfl
  not_true := rfl

end Outcome

/-- A column that fails behind one that is unknown, under two negations. -/
theorem eval_pushDown_and_eval_negate_fromLeft :
    let I := Outcome.fromLeft fun n => if n.base = "broken" then .failed else .unknown
    let e := Expr.not none (.binary none .and (.column none ⟨none, "a"⟩)
      (.binary none .or (.literal none (.bool false)) (.not none (.column none ⟨none, "broken"⟩))))
    I.DeMorgan ∧ I.eval e.pushDown = I.eval e ∧ I.eval e.negate = I.not (I.eval e) ∧
      I.eval e = .failed :=
  let laws := Outcome.fromLeft_deMorgan fun n => if n.base = "broken" then .failed else .unknown
  let same := Interpretation.eval_pushDown_and_eval_negate _ laws _
  ⟨laws, same.1, same.2, by decide⟩

end QueryLogic
