import QueryLogic.Proofs.FixedPoint
import QueryLogic.Proofs.NegationLaws
import QueryLogic.Proofs.NegationNormal
/-!
Negation and repeats. Negating an expression turns its chains into chains of the dual connective, and
where negating twice gives an expression back, two operands are equal exactly when their negations
are. So it makes no difference whether repeats are dropped before or after negating, locations
included. That negations stand at leaves only is never said here: all that is needed of the operands of a
chain is that negating them twice gives them back, and this follows from the statement itself, used
for an expression and for its negation.

What is proved:
  1. `Expr.Reversible.map_negate_operands`: the negation of a chain has the negated operands.
  2. `Expr.Reversible.beq_negate`: negation neither joins nor separates operands.
  3. `Expr.negate_rebuild`: putting a chain together commutes with negation.
  4. `Expr.negate_withoutRepeats_pushDown`: the negation of an expression without its repeats is its
     negation without repeats.
  5. `Expr.pushDown_eq_self_and_withoutRepeats_eq_self`: an expression that has gone through both
     passes is left alone by either of them.
-/
namespace QueryLogic.Expr

variable {c : Connective} {e x y : Expr}

/-- Negating the expression twice gives it back, node for node. -/
def Reversible (e : Expr) : Prop := e.negate.negate = e

theorem reversible_binary {loc : Option Location} {l r : Expr} :
    (binary loc c l r).Reversible ↔ l.Reversible ∧ r.Reversible := by
  simp [Reversible]

namespace Reversible

theorem connective?_negate (h : e.Reversible) :
    e.negate.connective? = e.connective?.map Connective.dual := by
  cases e with
  | literal loc v => cases v <;> rfl
  | column loc n => rfl
  | not loc x =>
    -- a connective below would not be hidden by a negation again
    cases below : x.pushDown with
    | binary own d l r =>
      rw [Reversible, negate_not, below] at h
      cases h
    | _ => rw [negate_not, below]; rfl
  | binary loc d l r => rfl

theorem map_negate_operands (h : e.Reversible) (c : Connective) :
    (e.operands c).map negate = e.negate.operands c.dual := by
  have root := h.connective?_negate
  induction e with
  | binary loc d l r ihl ihr =>
    obtain ⟨hl, hr⟩ := reversible_binary.1 h
    by_cases same : d = c
    · subst same
      rw [negate_binary, operands_binary, operands_binary, List.map_append,
        ihl hl hl.connective?_negate, ihr hr hr.connective?_negate]
    · rw [negate_binary, operands, if_neg same, operands,
        if_neg fun h => same (Connective.dual_inj.1 h)]
      rfl
  | _ =>
    apply Eq.symm
    apply operands_eq_singleton
    rw [root]
    exact (Option.some_ne_none c.dual).symm

theorem beq_negate (hx : x.Reversible) (hy : y.Reversible) :
    (x.negate == y.negate) = (x == y) := by
  rw [Bool.eq_iff_iff, beq_iff_shape, beq_iff_shape, shape_negate, shape_negate]
  constructor
  · intro h
    rw [← hx, ← hy, shape_negate, shape_negate, shape_negate, shape_negate, h]
  · intro h
    rw [h]

theorem negate_inherit (h : e.Reversible) (loc : Option Location) :
    (e.inherit loc).negate = e.negate.inherit loc := by
  have root := h.connective?_negate
  cases e with
  | binary own d l r => rfl
  | _ => exact (inherit_eq_self root loc).symm

theorem chain {first : Expr} {others : List Expr} (h : first.Reversible)
    (all : ∀ x ∈ others, x.Reversible) : (Expr.chain c first others).Reversible := by
  induction others generalizing first with
  | nil => exact h
  | cons x others ih =>
    have joined : (Expr.binary none c first x).Reversible :=
      reversible_binary.2 ⟨h, all x List.mem_cons_self⟩
    exact ih joined fun y hy => all y (List.mem_cons_of_mem x hy)

end Reversible

theorem negate_chain (c : Connective) (first : Expr) (others : List Expr) :
    (chain c first others).negate = chain c.dual first.negate (others.map negate) := by
  induction others generalizing first with
  | nil => rfl
  | cons x others ih => exact ih (binary none c first x)

/-- The chain of the negated operands, in place of any node with the same location. -/
theorem negate_rebuild {node node' : Expr} (same : node'.location = node.location)
    {kept : List Expr} (nonempty : kept ≠ []) (all : ∀ x ∈ kept, x.Reversible) :
    (rebuild node c kept).negate = rebuild node' c.dual (kept.map negate) := by
  obtain ⟨first, others, rfl⟩ := List.exists_cons_of_ne_nil nonempty
  have joined : (chain c first others).Reversible :=
    Reversible.chain (all first List.mem_cons_self)
      fun x hx => all x (List.mem_cons_of_mem first hx)
  rw [List.map_cons, rebuild_cons, rebuild_cons, same, ← negate_chain]
  exact joined.negate_inherit _

variable [Hashable Expr] [LawfulHashable Expr]

theorem distinct_map_negate {es : List Expr} (all : ∀ x ∈ es, x.Reversible) :
    distinct (es.map negate) = (distinct es).map negate := by
  rw [distinct_eq_eraseDups, distinct_eq_eraseDups]
  apply eraseDups_map
  intro a ha b hb
  exact (all b hb).beq_negate (all a ha)

/-! ## Expressions that are each other's negation when treated -/

/-- The negation of `x` without its repeats is `y` without its repeats, and what `x` contributes to a
chain, negated, is what `y` contributes to a chain of the dual connective. -/
structure Mirrors (x y : Expr) : Prop where
  negate_withoutRepeats : x.withoutRepeats.negate = y.withoutRepeats
  map_negate_gather : ∀ c, (gather c x).value.map negate = (gather c.dual y).value

/-- Each of the two mirrors the other. -/
def Opposed (x y : Expr) : Prop := x.Mirrors y ∧ y.Mirrors x

namespace Opposed

omit [LawfulHashable Expr] in
theorem symm (h : x.Opposed y) : y.Opposed x := And.symm h

omit [LawfulHashable Expr] in
/-- What is negated to and fro has not changed. -/
theorem reversible_of_mem (h : x.Opposed y) {z : Expr} (hz : z ∈ (gather c x).value) :
    z.Reversible := by
  have twice : (gather c x).value.map (negate ∘ negate) = (gather c x).value.map id := by
    rw [← List.map_map, h.1.map_negate_gather, h.2.map_negate_gather, Connective.dual_dual,
      List.map_id]
  exact List.map_inj_left.1 twice z hz

omit [LawfulHashable Expr] in
/-- An expression without a connective at its root contributes itself to every chain. -/
theorem of_not_connective (hx : x.connective? = none) (hy : y.connective? = none)
    (forth : x.withoutRepeats.negate = y.withoutRepeats)
    (back : y.withoutRepeats.negate = x.withoutRepeats) : x.Opposed y := by
  have alone : ∀ {z : Expr} (d : Connective), z.connective? = none →
      (gather d z).value = [z.withoutRepeats] := by
    intro z d root
    cases z with
    | binary => cases root
    | _ => rfl
  refine ⟨⟨forth, fun d => ?_⟩, ⟨back, fun d => ?_⟩⟩
  · rw [alone d hx, alone d.dual hy, ← forth]
    rfl
  · rw [alone d hy, alone d.dual hx, ← back]
    rfl

variable {loc : Option Location} {l l' r r' : Expr}

theorem negate_withoutRepeats_binary (hl : l.Opposed l') (hr : r.Opposed r') :
    (binary loc c l r).withoutRepeats.negate = (binary loc c.dual l' r').withoutRepeats := by
  have sides : (gather c.dual l').value ++ (gather c.dual r').value =
      ((gather c l).value ++ (gather c r).value).map negate := by
    rw [List.map_append, hl.1.map_negate_gather, hr.1.map_negate_gather]
  have all : ∀ z ∈ (gather c l).value ++ (gather c r).value, z.Reversible :=
    List.forall_mem_append.2
      ⟨fun _ hz => hl.reversible_of_mem hz, fun _ hz => hr.reversible_of_mem hz⟩
  rw [withoutRepeats_binary_eq_rebuild, withoutRepeats_binary_eq_rebuild, sides,
    distinct_map_negate all]
  apply negate_rebuild
  · rfl
  · exact distinct_gather_ne_nil c l r
  · exact fun z hz => all z ((distinct_sublist _).subset hz)

theorem mirrors_binary (hl : l.Opposed l') (hr : r.Opposed r') :
    (binary loc c l r).Mirrors (binary loc c.dual l' r') := by
  have forth : (Expr.binary loc c l r).withoutRepeats.negate =
      (Expr.binary loc c.dual l' r').withoutRepeats :=
    negate_withoutRepeats_binary hl hr
  have reversible : (Expr.binary loc c l r).withoutRepeats.Reversible := by
    rw [Reversible, forth, negate_withoutRepeats_binary hl.symm hr.symm, Connective.dual_dual]
  refine ⟨forth, fun d => ?_⟩
  rw [value_gather_binary, value_gather_binary]
  by_cases same : c = d
  · subst same
    rw [if_pos rfl, if_pos rfl, List.map_append, hl.1.map_negate_gather, hr.1.map_negate_gather]
  · -- a chain of the other connective takes the treated node apart
    rw [if_neg same, if_neg fun h => same (Connective.dual_inj.1 h),
      reversible.map_negate_operands d, forth]

theorem binary (hl : l.Opposed l') (hr : r.Opposed r') :
    (Expr.binary loc c l r).Opposed (.binary loc c.dual l' r') := by
  have back : (Expr.binary loc c.dual l' r').Mirrors (.binary loc c.dual.dual l r) :=
    mirrors_binary hl.symm hr.symm
  rw [Connective.dual_dual] at back
  exact ⟨mirrors_binary hl hr, back⟩

end Opposed

/-- The two ways in which a pass over the negations can end are opposed, whatever repeats they
have. -/
theorem opposed_pushDown_negate (e : Expr) : e.pushDown.Opposed e.negate := by
  induction e with
  | literal loc v =>
    apply Opposed.of_not_connective
    · rfl
    · cases v <;> rfl
    · cases v <;> rfl
    · cases v with
      | bool b => exact congrArg (fun t => literal loc (.bool t)) (Bool.not_not b)
      | _ => rfl
  | column loc n => exact .of_not_connective rfl rfl rfl rfl
  | not loc x ih => exact ih.symm
  | binary loc c l r ihl ihr => exact ihl.binary ihr

theorem negate_withoutRepeats_pushDown (e : Expr) :
    e.pushDown.withoutRepeats.negate = e.negate.withoutRepeats :=
  (opposed_pushDown_negate e).1.negate_withoutRepeats

/-- Dropping repeats brings no negation back above a connective and puts no location on a negation:
the result of both passes comes back when it is negated twice, which is pushing its negations down
once more. -/
theorem pushDown_eq_self_and_withoutRepeats_eq_self (e : Expr) :
    let p := e.pushDown.withoutRepeats
    p.pushDown = p ∧ p.withoutRepeats = p := by
  intro p
  obtain ⟨forth, back⟩ := opposed_pushDown_negate e
  have reversible : p.negate.negate = p := by
    rw [forth.negate_withoutRepeats, back.negate_withoutRepeats]
  constructor
  · calc p.pushDown
      _ = p.negate.negate := (pushNot_pushNot true true p).symm
      _ = p := reversible
  · apply withoutRepeats_eq_self
    · exact chainNormal_withoutRepeats e.pushDown
    · exact placedAtRoots_withoutRepeats e.pushDown

end QueryLogic.Expr

namespace QueryLogic

/-- A chain under a negation collapses and hands its location on, before the negation and behind
it. -/
theorem negate_withoutRepeats_pushDown_collapsed :
    let a := Expr.column (some ⟨1, 5⟩) ⟨none, "a"⟩
    let both := Expr.binary (some ⟨1, 7⟩) .and a (.literal none (.bool true))
    let e := Expr.binary (some ⟨2, 1⟩) .or both (.not none (.not (some ⟨3, 1⟩) both))
    e.pushDown.withoutRepeats.negate = e.negate.withoutRepeats ∧ ¬ e.negate.ChainNormal := by
  intro a both e
  exact ⟨Expr.negate_withoutRepeats_pushDown e, by decide⟩

/-- A chain that a negation hides from the chain around it, with a repeated operand and a located
negation above a leaf. -/
theorem pushDown_eq_self_and_withoutRepeats_eq_self_hidden :
    let a := Expr.column (some ⟨1, 5⟩) ⟨none, "a"⟩
    let either := Expr.binary (some ⟨1, 7⟩) .or a (.literal none (.bool true))
    let e := Expr.binary (some ⟨2, 1⟩) .and (.not (some ⟨3, 1⟩) a) (.not (some ⟨4, 1⟩) either)
    let p := e.pushDown.withoutRepeats
    p.pushDown = p ∧ p.withoutRepeats = p ∧ ¬ e.NegationNormal ∧ ¬ e.pushDown.ChainNormal := by
  intro a either e p
  obtain ⟨pushed, dropped⟩ := Expr.pushDown_eq_self_and_withoutRepeats_eq_self e
  exact ⟨pushed, dropped, by decide, by decide⟩

end QueryLogic
