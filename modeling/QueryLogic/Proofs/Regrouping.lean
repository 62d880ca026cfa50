import QueryLogic.Proofs.ChainMeaning
import QueryLogic.Proofs.ChainOperands
import QueryLogic.Proofs.FixedPoint
/-!
Taking a chain apart and putting it together again. The operands come back in a tree that is nested to
the left, so nothing is changed but the grouping of the chain, and the locations of the nodes that
join it. A chain that was nested to the left already is rebuilt as it was.

What is proved:
  1. `Expr.foldl_operands` and `Expr.Joins.eq_of_operands_eq`: a value that joins the operands of a
     chain by an associative operation depends on the list of operands only, not on its grouping.
  2. `Expr.endsRight_of_mem_joints_chain`: a chain that was put together is nested to the left.
  3. `Expr.exists_chain?_operands_shape_eq`: what is nested to the left is rebuilt to an equal chain.
  4. `Expr.exists_regrouped_chain?_operands`: all this of the operands of any expression.
-/
namespace QueryLogic.Expr

universe u

variable {c : Connective} {a b e m : Expr}

/-! ## The nodes of a chain -/

/-- The nodes of the chain of `c` at the root: those that are reached from the root through nodes of
`c` only. -/
def joints (c : Connective) : Expr → List Expr
  | binary loc d l r => if d = c then binary loc d l r :: (l.joints c ++ r.joints c) else []
  | _ => []

/-- The nodes of that chain which are reached through left operands only. -/
def spine (c : Connective) : Expr → List Expr
  | binary loc d l r => if d = c then binary loc d l r :: l.spine c else []
  | _ => []

/-- The right operand, if there is one, does not go on with a chain of `c`. -/
def EndsRight (c : Connective) : Expr → Prop
  | binary _ _ _ r => r.connective? ≠ some c
  | _ => True

instance decidableEndsRight (c : Connective) : DecidablePred (EndsRight c)
  | literal _ _ => .isTrue trivial
  | column _ _ => .isTrue trivial
  | not _ _ => .isTrue trivial
  | binary _ _ _ r => inferInstanceAs (Decidable (r.connective? ≠ some c))

theorem joints_eq_nil (h : e.connective? ≠ some c) : e.joints c = [] := by
  cases e with
  | binary loc d l r => exact if_neg fun same => h (congrArg some same)
  | _ => rfl

theorem joints_binary (loc : Option Location) (c : Connective) (l r : Expr) :
    (binary loc c l r).joints c = binary loc c l r :: (l.joints c ++ r.joints c) := if_pos rfl

theorem spine_subset_joints (c : Connective) (e : Expr) : e.spine c ⊆ e.joints c := by
  induction e with
  | binary loc d l r ihl _ =>
    by_cases same : d = c
    · rw [spine, joints, if_pos same, if_pos same]
      exact List.cons_subset_cons _ (List.subset_append_of_subset_left _ ihl)
    · rw [spine, if_neg same]
      exact List.nil_subset _
  | _ => exact List.nil_subset _

/-- Whether a chain is nested to the left can be seen from every expression equal to it. -/
theorem Alike.forall_joints_endsRight_iff (h : Alike a b) (c : Connective) :
    (∀ m ∈ a.joints c, m.EndsRight c) ↔ ∀ m ∈ b.joints c, m.EndsRight c := by
  induction h with
  | @binary loc loc' d l l' r r' left right ihl ihr =>
    have root : r.connective? = r'.connective? := by cases right <;> rfl
    by_cases same : d = c
    · subst same
      rw [joints_binary, joints_binary, List.forall_mem_cons, List.forall_mem_cons,
        List.forall_mem_append, List.forall_mem_append, ihl, ihr, EndsRight, EndsRight, root]
    · rw [joints, joints, if_neg same, if_neg same]
  | _ => exact Iff.rfl

/-! ## Values -/

/-- The value of every node of `c` joins those of its operands by `op`, wherever the node was
written. -/
def Joins {T : Type u} (c : Connective) (value : Expr → T) (op : T → T → T) : Prop :=
  ∀ loc l r, value (binary loc c l r) = op (value l) (value r)

section Values

variable {T : Type u} {value : Expr → T} {op : T → T → T}

/-- Going through the operands joins the value of the whole to what was there before. -/
theorem Joins.foldl_operands [Std.Associative op] (h : Joins c value op) (e : Expr)
    (t : Option T) :
    (e.operands c).foldl (fun t x => Option.merge op t (some (value x))) t =
      Option.merge op t (some (value e)) := by
  have merge : Std.Associative (Option.merge op) := inferInstance
  induction e using chain_induction c generalizing t with
  | single e alone =>
    rw [alone]
    rfl
  | joined loc l r ihl ihr =>
    rw [operands_binary, List.foldl_append, ihl, ihr, h, merge.assoc]
    rfl

/-- Expressions with the same operands have the same value. -/
theorem Joins.eq_of_operands_eq [Std.Associative op] (h : Joins c value op)
    (same : a.operands c = b.operands c) : value a = value b := by
  have whole := h.foldl_operands a none
  rw [same, h.foldl_operands b none] at whole
  exact (Option.some.inj whole).symm

theorem joins_eval (I : Interpretation T) (c : Connective) : Joins c I.eval (I.join c) :=
  fun _ _ _ => rfl

end Values

/-! ## The rebuilt chain -/

theorem endsRight_of_mem_joints_chain {first : Expr} {others : List Expr}
    (front : ∀ m ∈ first.joints c, m.EndsRight c)
    (single : ∀ x ∈ others, x.connective? ≠ some c) :
    ∀ m ∈ (chain c first others).joints c, m.EndsRight c := by
  induction others generalizing first with
  | nil => exact front
  | cons x others ih =>
    have other := single x List.mem_cons_self
    -- the node that joins the first two operands is the new first operand
    have joined : ∀ m ∈ (binary none c first x).joints c, m.EndsRight c := by
      rw [joints_binary, joints_eq_nil other, List.append_nil]
      exact List.forall_mem_cons.2 ⟨other, front⟩
    exact ih joined fun y hy => single y (List.mem_cons_of_mem x hy)

theorem exists_chain?_operands_shape_eq (h : ∀ m ∈ e.joints c, m.EndsRight c) :
    ∃ r, chain? c (e.operands c) = some r ∧ r.shape = e.shape := by
  induction e using chain_induction c with
  | single e alone =>
    refine ⟨e, ?_, rfl⟩
    rw [alone]
    rfl
  | joined loc l r ihl _ =>
    rw [joints_binary, List.forall_mem_cons, List.forall_mem_append] at h
    obtain ⟨other, left, -⟩ := h
    obtain ⟨l', whole, same⟩ := ihl left
    refine ⟨binary none c l' r, ?_, ?_⟩
    · rw [operands_binary, operands_eq_singleton other]
      exact chain?_concat whole r
    · rw [shape, shape, same]

/-- The chain of `c` at the root of `e`, and nothing else of it, is grouped in another way in `r`. -/
structure Regrouped (c : Connective) (e r : Expr) : Prop where
  operands_eq : r.operands c = e.operands c
  endsRight_of_mem_spine : ∀ m ∈ r.spine c, m.EndsRight c
  value_eq : ∀ {T : Type u} (value : Expr → T) (op : T → T → T), Std.Associative op →
    Joins c value op → value r = value e
  eval_eq : ∀ {T : Type u} (I : Interpretation T), Std.Associative (I.join c) →
    I.eval r = I.eval e
  beq_iff : (r == e) = true ↔ ∀ m ∈ e.joints c, m.EndsRight c

theorem exists_regrouped_chain?_operands (c : Connective) (e : Expr) :
    ∃ r, chain? c (e.operands c) = some r ∧ Regrouped.{u} c e r := by
  obtain ⟨first, others, list⟩ := List.exists_cons_of_ne_nil (operands_ne_nil c e)
  have single : ∀ x ∈ first :: others, x.connective? ≠ some c := by
    rw [← list]
    exact fun x hx => connective?_ne_of_mem_operands hx
  have operands : (chain c first others).operands c = e.operands c := by
    rw [operands_chain, list, flatMap_operands_eq_self_iff]
    exact single
  have nested : ∀ m ∈ (chain c first others).joints c, m.EndsRight c := by
    obtain ⟨alone, rest⟩ := List.forall_mem_cons.1 single
    apply endsRight_of_mem_joints_chain _ rest
    rw [joints_eq_nil alone]
    exact List.forall_mem_nil _
  refine ⟨chain c first others, by rw [list]; rfl, operands, ?_, ?_, ?_, ?_⟩
  · exact fun m hm => nested m (spine_subset_joints c _ hm)
  · exact fun value op _ h => h.eq_of_operands_eq operands
  · exact fun I _ => (joins_eval I c).eq_of_operands_eq operands
  · rw [beq_iff_shape]
    constructor
    · intro same
      exact ((alike_of_shape_eq same).forall_joints_endsRight_iff c).1 nested
    · intro h
      obtain ⟨r, whole, same⟩ := exists_chain?_operands_shape_eq h
      rw [list] at whole
      exact Option.some.inj whole ▸ same

end QueryLogic.Expr

namespace QueryLogic

/-- A chain that is nested to the right, with a disjunction that fails as its last operand. -/
theorem exists_regrouped_chain?_operands_right :
    let I := Outcome.fromLeft fun n => if n.base = "broken" then .failed else .yes
    let a := Expr.column (some ⟨1, 1⟩) ⟨none, "a"⟩
    let b := Expr.column none ⟨none, "b"⟩
    let last := Expr.binary (some ⟨1, 20⟩) .or (.column none ⟨none, "broken"⟩) a
    let e := Expr.binary (some ⟨1, 3⟩) .and a (.binary (some ⟨1, 9⟩) .and b last)
    let r := Expr.binary none .and (.binary none .and a b) last
    Expr.chain? .and (e.operands .and) = some r ∧ r.operands .and = [a, b, last] ∧
      (r == e) = false ∧ I.eval r = I.eval e ∧ I.eval e = .failed := by
  intro I a b last e r
  obtain ⟨r', whole, regrouped⟩ := Expr.exists_regrouped_chain?_operands .and e
  obtain rfl : r = r' := Option.some.inj whole
  have assoc : Std.Associative (I.join .and) := ⟨(Outcome.join_leftRegular .and).assoc⟩
  have nested : ¬ ∀ m ∈ e.joints .and, m.EndsRight .and := by decide
  exact ⟨whole, regrouped.operands_eq, Bool.not_eq_true _ ▸ fun h => nested (regrouped.beq_iff.1 h),
    regrouped.eval_eq I assoc, by decide⟩

end QueryLogic
