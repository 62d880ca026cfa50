import QueryLogic.Expr.Negation
import QueryLogic.Proofs.ChainOperands
/-!
Chains and negations. Moving negations to the leaves turns a chain into a chain, of the dual connective
where it stands under an odd number of negations. Its operands are not just the treated operands of
the chain as it was: an operand that is a negation may have hidden a chain of the right connective,
whose operands then join in. So each treated operand is taken apart once more.

What is proved:
  1. `Expr.operands_pushNot`: the operands of a treated chain are those of its treated operands.
  2. `Expr.operands_pushNot_eq_map_iff`: they are the treated operands themselves exactly when none of
     these is a chain of the connective.
  3. `Expr.operands_negate_and_operands_pushDown`: both for the negation of an expression and for the
     expression itself.
-/
namespace QueryLogic.Expr

/-- The operands of the treated chain, for either flag. -/
theorem operands_pushNot (negated : Bool) (c : Connective) (e : Expr) :
    (e.pushNot negated).value.operands (if negated then c.dual else c) =
      (e.operands c).flatMap fun x =>
        (x.pushNot negated).value.operands (if negated then c.dual else c) := by
  symm
  apply flatMap_operands_of_append
  intro loc l r
  exact operands_binary loc _ _ _

theorem operands_pushNot_eq_map_iff (negated : Bool) (c : Connective) (e : Expr) :
    (e.pushNot negated).value.operands (if negated then c.dual else c) =
        (e.operands c).map (fun x => (x.pushNot negated).value) ↔
      ∀ x ∈ e.operands c,
        (x.pushNot negated).value.connective? ≠ some (if negated then c.dual else c) := by
  have spliced : ((e.operands c).map fun x => (x.pushNot negated).value).flatMap
        (operands (if negated then c.dual else c)) =
      (e.pushNot negated).value.operands (if negated then c.dual else c) := by
    rw [List.flatMap_map, operands_pushNot]
  rw [← spliced, flatMap_operands_eq_self_iff, List.forall_mem_map]

/-- All but a negation keep a connective at their root, or have none. -/
theorem connective?_pushNot (negated : Bool) {x : Expr} (h : x.kind ≠ .not) :
    (x.pushNot negated).value.connective? =
      x.connective?.map fun d => if negated then d.dual else d := by
  cases x with
  | literal loc v =>
    cases negated with
    | true => cases v <;> rfl
    | false => rfl
  | column loc n => cases negated <;> rfl
  | not loc y => exact absurd rfl h
  | binary loc d l r => rfl

/-- An operand that is no negation does not turn into a chain that would join in. -/
theorem connective?_negate_ne_of_mem_operands {c : Connective} {e x : Expr}
    (hx : x ∈ e.operands c) (h : x.kind ≠ .not) : x.negate.connective? ≠ some c.dual := by
  intro root
  have turned : x.connective?.map Connective.dual = some c.dual :=
    (connective?_pushNot true h).symm.trans root
  obtain ⟨d, own, same⟩ := Option.map_eq_some_iff.1 turned
  exact connective?_ne_of_mem_operands hx (own.trans (congrArg some (Connective.dual_inj.1 same)))

theorem operands_negate_and_operands_pushDown (c : Connective) (e : Expr) :
    e.negate.operands c.dual = (e.operands c).flatMap (fun x => x.negate.operands c.dual) ∧
      e.pushDown.operands c = (e.operands c).flatMap (fun x => x.pushDown.operands c) ∧
      (e.negate.operands c.dual = (e.operands c).map negate ↔
        ∀ x ∈ e.operands c, x.negate.connective? ≠ some c.dual) ∧
      ((∀ x ∈ e.operands c, x.kind ≠ .not) →
        e.negate.operands c.dual = (e.operands c).map negate) := by
  have apart : e.negate.operands c.dual = (e.operands c).map negate ↔
      ∀ x ∈ e.operands c, x.negate.connective? ≠ some c.dual :=
    operands_pushNot_eq_map_iff true c e
  refine ⟨operands_pushNot true c e, operands_pushNot false c e, apart, fun h => apart.2 ?_⟩
  intro x hx
  exact connective?_negate_ne_of_mem_operands hx (h x hx)

end QueryLogic.Expr

namespace QueryLogic

/-- A negation that hides a disjunction: when the conjunction around it is negated, the operands of
the disjunction join in. Without the negation nothing joins in. -/
theorem operands_negate_and_operands_pushDown_hidden :
    let a := Expr.column (some ⟨1, 1⟩) ⟨none, "a"⟩
    let b := Expr.column none ⟨none, "b"⟩
    let either := Expr.binary (some ⟨1, 9⟩) .or b a
    let e := Expr.binary none .and a (.not (some ⟨1, 5⟩) either)
    let plain := Expr.binary none .and a either
    e.negate.operands .or = [.not none a, b, a] ∧
      e.negate.operands .or ≠ (e.operands .and).map Expr.negate ∧
      (∀ x ∈ plain.operands .and, x.kind ≠ .not) ∧
      plain.negate.operands .or = (plain.operands .and).map Expr.negate := by
  intro a b either e plain
  obtain ⟨spliced, -, apart, -⟩ := Expr.operands_negate_and_operands_pushDown .and e
  have joining : ¬ ∀ x ∈ e.operands .and, x.negate.connective? ≠ some .or := by decide
  have free : ∀ x ∈ plain.operands .and, x.kind ≠ .not := by decide
  exact ⟨spliced, fun same => joining (apart.1 same), free,
    (Expr.operands_negate_and_operands_pushDown .and plain).2.2.2 free⟩

end QueryLogic
