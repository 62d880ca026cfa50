import QueryLogic.Expr.Repeats
import QueryLogic.Proofs.Meaning
/-!
The meaning of chains, and that dropping repeated operands keeps it. The operands of a chain have a
total, their truth values joined in order; where joining is associative the total is the meaning of
every expression with these operands, however it is nested. An operand that already stands further
to the left adds nothing to a total when joining is idempotent and `x y x` is `x y`. The order of
the operands is never changed, so joining need not be commutative.

What is proved:
  1. `total_operands` and `eval_rebuild`: taking a chain apart and putting it together keep its
     total.
  2. `total_eraseDups`: the first occurrences have the total of all operands.
  3. `eval_withoutRepeats`: an expression without its repeated operands means the same.
-/
namespace QueryLogic

universe u

/-- An associative operation for which an operand counts once, at its first place. -/
structure LeftRegular {T : Type u} (op : T → T → T) : Prop where
  assoc : ∀ x y z, op (op x y) z = op x (op y z)
  idem : ∀ x, op x x = x
  again : ∀ x y, op (op x y) x = op x y

namespace LeftRegular

variable {T : Type u} {op : T → T → T}

/-- A value that stands before another one and again behind it may be left out there, whatever
follows. -/
theorem merge_again (h : LeftRegular op) (x y : T) (t : Option T) :
    Option.merge op (some x) (.merge op (some y) (.merge op (some x) t)) =
      Option.merge op (some x) (.merge op (some y) t) := by
  cases t with
  | none =>
    show some (op x (op y x)) = some (op x y)
    rw [← h.assoc, h.again]
  | some z =>
    show some (op x (op y (op x z))) = some (op x (op y z))
    rw [← h.assoc y x z, ← h.assoc x (op y x) z, ← h.assoc x y x, h.again, h.assoc]

theorem merge_self (h : LeftRegular op) (x : T) (t : Option T) :
    Option.merge op (some x) (.merge op (some x) t) = Option.merge op (some x) t := by
  cases t with
  | none => exact congrArg some (h.idem x)
  | some z =>
    show some (op x (op x z)) = some (op x z)
    rw [← h.assoc, h.idem]

end LeftRegular

namespace Interpretation

variable {T : Type u} (I : Interpretation T)

/-- The truth values of some operands joined in order; without operands there is none. -/
def total (c : Connective) (es : List Expr) : Option T :=
  es.foldr (fun e t => Option.merge (I.join c) (some (I.eval e)) t) none

@[simp] theorem total_nil (c : Connective) : I.total c [] = none := rfl

@[simp] theorem total_cons (c : Connective) (e : Expr) (es : List Expr) :
    I.total c (e :: es) = Option.merge (I.join c) (some (I.eval e)) (I.total c es) := rfl

section Associative

variable (c : Connective) [Std.Associative (I.join c)]

theorem merge_assoc (s t u : Option T) :
    Option.merge (I.join c) (.merge (I.join c) s t) u =
      Option.merge (I.join c) s (.merge (I.join c) t u) :=
  Std.Associative.assoc s t u

theorem total_append (es fs : List Expr) :
    I.total c (es ++ fs) = Option.merge (I.join c) (I.total c es) (I.total c fs) := by
  induction es with
  | nil => rw [List.nil_append, total_nil, Option.merge_none_left]
  | cons e es ih => rw [List.cons_append, total_cons, total_cons, ih, merge_assoc]

theorem total_operands (e : Expr) : I.total c (e.operands c) = some (I.eval e) := by
  induction e using Expr.chain_induction c with
  | single e alone =>
    rw [alone]
    rfl
  | joined loc l r ihl ihr =>
    rw [Expr.operands_binary, total_append, ihl, ihr]
    rfl

theorem eval_chain (first : Expr) (others : List Expr) :
    some (I.eval (Expr.chain c first others)) = I.total c (first :: others) := by
  induction others generalizing first with
  | nil => rfl
  | cons e es ih =>
    have joined := ih (.binary none c first e)
    rw [total_cons, eval, ← Option.merge_some_some, merge_assoc] at joined
    exact joined

theorem eval_rebuild (node : Expr) {kept : List Expr} {t : T} (h : I.total c kept = some t) :
    I.eval (Expr.rebuild node c kept) = t := by
  cases kept with
  | nil => cases h
  | cons first others =>
    have same : (Expr.rebuild node c (first :: others)).shape = (Expr.chain c first others).shape :=
      Expr.shape_rebuild node rfl
    rw [← eval_chain, Option.some.injEq] at h
    rw [I.eval_eq_of_shape_eq same, h]

end Associative

section LeftRegular

variable {I} {c : Connective} (h : LeftRegular (I.join c))

include h

/-- Behind an operand, everything equal to it may be left out. -/
theorem total_filter_of_leftRegular (a : Expr) (es : List Expr) :
    Option.merge (I.join c) (some (I.eval a)) (I.total c (es.filter fun b => !b == a)) =
      Option.merge (I.join c) (some (I.eval a)) (I.total c es) := by
  induction es with
  | nil => rfl
  | cons b es ih =>
    by_cases same : (b == a) = true
    · have value : I.eval b = I.eval a := I.eval_eq_of_shape_eq (Expr.beq_iff_shape.1 same)
      rw [List.filter_cons_of_neg (by simp [same]), ih, total_cons, value, h.merge_self]
    · -- the operand stays; the one before it is carried over it and back
      rw [List.filter_cons_of_pos (by simp [same]), total_cons, total_cons, ← h.merge_again, ih,
        h.merge_again]

theorem total_eraseDups (es : List Expr) : I.total c es.eraseDups = I.total c es := by
  induction es using eraseDups_induction with
  | nil => rfl
  | cons e es ih =>
    rw [List.eraseDups_cons, total_cons, ih, total_filter_of_leftRegular h, total_cons]

end LeftRegular

variable [Hashable Expr] [LawfulHashable Expr] {I}

/-- A treated expression means the same, and so does what it contributes to a chain around it. -/
theorem eval_withoutRepeats_and_total_gather (h : ∀ c, LeftRegular (I.join c)) (e : Expr) :
    I.eval e.withoutRepeats = I.eval e ∧
      ∀ c, I.total c (Expr.gather c e).value = some (I.eval e) := by
  have assoc : ∀ c, Std.Associative (I.join c) := fun c => ⟨(h c).assoc⟩
  apply Expr.dropRepeats_induction (P := fun e treated => I.eval treated.value = I.eval e)
    (G := fun c e es => I.total c es.value = some (I.eval e))
  case literal => exact fun _ _ => rfl
  case column => exact fun _ _ => rfl
  case not => exact fun loc x treated value => congrArg I.not value
  case joined =>
    intro loc c l r ls rs left right
    rw [total_append, left, right]
    rfl
  case closed =>
    intro loc c l r es _ sides
    apply eval_rebuild
    rw [distinct_eq_eraseDups, total_eraseDups (h c), sides]
  case apart =>
    intro c e treated value
    rw [← value]
    exact I.total_operands c treated.value

theorem eval_withoutRepeats (I : Interpretation T) (h : ∀ c, LeftRegular (I.join c)) (e : Expr) :
    I.eval e.withoutRepeats = I.eval e :=
  (eval_withoutRepeats_and_total_gather h e).1

end Interpretation

/-- Evaluation from the left counts an operand once: decided or failed, it is decided or failed
again. -/
theorem Outcome.join_leftRegular (c : Connective) : LeftRegular (Outcome.join c) where
  assoc x y z := by cases c <;> cases x <;> cases y <;> cases z <;> rfl
  idem x := by cases c <;> cases x <;> rfl
  again x y := by cases c <;> cases x <;> cases y <;> rfl

/-- Joining outcomes is not commutative, so an operand must not be moved to the front. -/
example : Outcome.join .and .no .failed ≠ Outcome.join .and .failed .no := by decide

/-- A chain whose inner chain of the other connective shrinks to one operand and joins it. -/
theorem eval_withoutRepeats_fromLeft :
    let I := Outcome.fromLeft fun n => if n.base = "broken" then .failed else .unknown
    let a := Expr.column none ⟨none, "a"⟩
    let b := Expr.column none ⟨none, "broken"⟩
    let both := Expr.binary none .and a b
    let e := Expr.binary none .and a (.binary none .or both both)
    (∀ c, LeftRegular (I.join c)) ∧ I.eval e.withoutRepeats = I.eval e ∧ I.eval e = .failed :=
  ⟨Outcome.join_leftRegular,
    Interpretation.eval_withoutRepeats _ Outcome.join_leftRegular _, by decide⟩

end QueryLogic
