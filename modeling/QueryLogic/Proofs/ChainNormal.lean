import QueryLogic.Proofs.NormalShape
/-!
Conditions whose chains are in normal form. At every connective, wherever it stands, the right
operand does not go on with the chain and no two operands of the chain are equal. Whether this holds
of a condition can be decided, and depends on its shape alone.

What is proved:
  1. `Expr.chainNormal_iff`: a condition is in this form exactly when its shape is normal.
  2. `Expr.chainNormal_withoutRepeats_and_beq_iff`: dropping repeats yields a condition in this
     form, and one equal to the given condition only if that was in this form already.
-/
namespace QueryLogic.Expr

/-- The connective at the root, if there is one. -/
def connective? (e : Expr) : Option Connective := e.binary?.map Prod.fst

theorem connective?_eq_some_iff {e : Expr} {c : Connective} :
    e.connective? = some c ↔ ∃ loc l r, e = binary loc c l r := by
  cases e with
  | binary loc d l r => simp [connective?, binary?]
  | _ => simp [connective?, binary?]

/-- A chain has an operand on either side. -/
theorem one_lt_length_operands {e : Expr} {c : Connective} (h : e.connective? = some c) :
    1 < (e.operands c).length := by
  obtain ⟨loc, l, r, rfl⟩ := connective?_eq_some_iff.1 h
  have left := List.length_pos_iff.2 (operands_ne_nil c l)
  have right := List.length_pos_iff.2 (operands_ne_nil c r)
  rw [operands_binary, List.length_append]
  omega

/-- An expression with another root is a chain of one. -/
theorem operands_eq_singleton {e : Expr} {c : Connective} (h : e.connective? ≠ some c) :
    e.operands c = [e] := by
  cases e with
  | binary loc d l r =>
    apply if_neg
    intro same
    exact h (congrArg some same)
  | _ => rfl

theorem connective?_ne_of_operands_eq_singleton {e : Expr} {c : Connective}
    (h : e.operands c = [e]) : e.connective? ≠ some c := by
  intro root
  have more := one_lt_length_operands root
  rw [h] at more
  exact Nat.lt_irrefl 1 more

/-- No operand of a chain goes on with it. -/
theorem connective?_ne_of_mem_operands {e x : Expr} {c : Connective} (h : x ∈ e.operands c) :
    x.connective? ≠ some c := by
  induction e using chain_induction c with
  | single e alone =>
    rw [alone] at h
    rw [List.mem_singleton.1 h]
    exact connective?_ne_of_operands_eq_singleton alone
  | joined loc l r ihl ihr =>
    rw [operands_binary] at h
    rcases List.mem_append.1 h with h | h
    · exact ihl h
    · exact ihr h

/-- Every chain is nested to the left and has no operand twice. -/
def ChainNormal : Expr → Prop
  | literal _ _ => True
  | column _ _ => True
  | not _ x => x.ChainNormal
  | binary loc c l r =>
    l.ChainNormal ∧ r.ChainNormal ∧ r.connective? ≠ some c ∧
      ((binary loc c l r).operands c).Pairwise fun a b => (a == b) = false

instance decidableChainNormal : DecidablePred ChainNormal
  | literal _ _ => .isTrue trivial
  | column _ _ => .isTrue trivial
  | not _ x => decidableChainNormal x
  | binary loc c l r =>
    have := decidableChainNormal l
    have := decidableChainNormal r
    inferInstanceAs (Decidable (l.ChainNormal ∧ r.ChainNormal ∧ r.connective? ≠ some c ∧
      ((binary loc c l r).operands c).Pairwise fun a b => (a == b) = false))

theorem operands_shape_eq_singleton_iff {e : Expr} {c : Connective} :
    e.shape.operands c = [e.shape] ↔ e.connective? ≠ some c := by
  constructor
  · intro single root
    have more := one_lt_length_operands root
    rw [← List.length_map shape, map_shape_operands, single] at more
    exact Nat.lt_irrefl 1 more
  · intro other
    rw [← map_shape_operands, operands_eq_singleton other]
    rfl

theorem pairwise_operands_iff {e : Expr} {c : Connective} :
    ((e.operands c).Pairwise fun a b => (a == b) = false) ↔ (e.shape.operands c).Nodup := by
  rw [← map_shape_operands, List.Nodup, List.pairwise_map]
  simp only [beq_eq_beq_shape, beq_eq_false_iff_ne]

/-- The form is that of the shape. -/
theorem chainNormal_iff {e : Expr} : e.ChainNormal ↔ e.shape.Normal := by
  induction e with
  | literal loc v => exact Iff.rfl
  | column loc n => exact Iff.rfl
  | not loc x ih => exact ih
  | binary loc c l r ihl ihr =>
    rw [ChainNormal, ihl, ihr, ← operands_shape_eq_singleton_iff, pairwise_operands_iff, shape,
      Shape.operands_binary]
    rfl

variable [Hashable Expr] [LawfulHashable Expr]

theorem chainNormal_withoutRepeats (e : Expr) : e.withoutRepeats.ChainNormal := by
  rw [chainNormal_iff, shape_withoutRepeats]
  exact Shape.normal_reduced e.shape

theorem chainNormal_withoutRepeats_and_beq_iff (e : Expr) :
    e.withoutRepeats.ChainNormal ∧ ((e.withoutRepeats == e) = true ↔ e.ChainNormal) := by
  refine ⟨chainNormal_withoutRepeats e, ?_⟩
  rw [beq_iff_shape, shape_withoutRepeats, chainNormal_iff]
  exact Shape.reduced_eq_self_iff

end QueryLogic.Expr

namespace QueryLogic

/-- Two equal chains of the other connective, of which one remains and joins the chain around it. -/
theorem chainNormal_withoutRepeats_collapsed :
    let a := Expr.column (some ⟨1, 1⟩) ⟨none, "a"⟩
    let both := Expr.binary none .and (.column none ⟨none, "b"⟩) a
    let e := Expr.not none (.binary none .and a (.binary none .or both both))
    e.withoutRepeats.ChainNormal ∧ ¬ e.ChainNormal ∧ (e.withoutRepeats == e) = false := by
  intro a both e
  obtain ⟨normal, unchanged⟩ := Expr.chainNormal_withoutRepeats_and_beq_iff e
  have repeated : ¬ e.ChainNormal := by decide
  refine ⟨normal, repeated, ?_⟩
  rw [← Bool.not_eq_true, unchanged]
  exact repeated

end QueryLogic
