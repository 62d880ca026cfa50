import QueryLogic.Proofs.FixedPoint
/-!
Where the locations of a condition without its repeats come from. A location says where a node was
written, so it should stay with a node of that kind or be dropped with it. Dropping repeats keeps to
this except in one case. A chain that is left with a single operand is replaced by that operand, and
when the operand is a chain of the other connective, it takes the location of the chain that is
gone: the location of an AND then marks an OR.

What is proved:
  1. `Expr.mem_nodes_chain` and `Expr.mem_nodes_inherit`: a located node of a chain that was put
     together is a node of one of its operands, and only the root takes a location over.
  2. `Expr.sourced_withoutRepeats_and_gather`: each location of the result was that of a node of the
     same kind, or of a chain that collapsed to an operand of the other connective.
  3. `Expr.locationsKept_iff`: all locations stay with nodes of their kind exactly when every such
     chain that has a location and can be seen in the result shares it with a connective of the
     right kind.
-/
namespace QueryLogic

/-- What a node is, its location and its operands aside. -/
inductive Head
  | literal (value : LiteralValue)
  | column (name : ColumnName)
  | not
  | connective (c : Connective)
  deriving DecidableEq, Repr

namespace Expr

def head : Expr → Head
  | literal _ v => .literal v.value
  | column _ n => .column n
  | not _ _ => .not
  | binary _ c _ _ => .connective c

/-- All nodes of an expression, each with what is below it: the root, then those of its operands. -/
def nodes : Expr → List Expr
  | literal loc v => [literal loc v]
  | column loc n => [column loc n]
  | not loc x => not loc x :: x.nodes
  | binary loc c l r => binary loc c l r :: (l.nodes ++ r.nodes)

theorem mem_nodes_self (e : Expr) : e ∈ e.nodes := by
  cases e <;> exact List.mem_cons_self

theorem head_eq_connective_iff {e : Expr} {c : Connective} :
    e.head = .connective c ↔ e.connective? = some c := by
  cases e <;> simp [head, connective?, binary?]

variable {c : Connective} {e m n x : Expr} {loc : Option Location}

theorem left_nodes_subset (loc : Option Location) (c : Connective) (l r : Expr) :
    l.nodes ⊆ (binary loc c l r).nodes :=
  List.subset_cons_of_subset _ (List.subset_append_left _ _)

theorem right_nodes_subset (loc : Option Location) (c : Connective) (l r : Expr) :
    r.nodes ⊆ (binary loc c l r).nodes :=
  List.subset_cons_of_subset _ (List.subset_append_right _ _)

theorem nodes_subset_of_mem_operands (h : x ∈ e.operands c) : x.nodes ⊆ e.nodes := by
  induction e using chain_induction c with
  | single e alone =>
    rw [alone] at h
    rw [List.mem_singleton.1 h]
    exact List.Subset.refl _
  | joined own l r ihl ihr =>
    rw [operands_binary] at h
    rcases List.mem_append.1 h with h | h
    · exact List.Subset.trans (ihl h) (left_nodes_subset own c l r)
    · exact List.Subset.trans (ihr h) (right_nodes_subset own c l r)

/-- The nodes that join the operands of a chain have no location. -/
theorem mem_nodes_chain {first : Expr} {others : List Expr}
    (h : n ∈ (chain c first others).nodes) (located : n.location ≠ none) :
    ∃ x ∈ first :: others, n ∈ x.nodes := by
  induction others generalizing first with
  | nil => exact ⟨first, List.mem_cons_self, h⟩
  | cons y others ih =>
    obtain ⟨x, hx, hn⟩ := ih h
    rcases List.mem_cons.1 hx with rfl | hx
    · rcases List.mem_cons.1 hn with rfl | hn
      · exact absurd rfl located
      · rcases List.mem_append.1 hn with hn | hn
        · exact ⟨first, List.mem_cons_self, hn⟩
        · exact ⟨y, List.mem_cons_of_mem first List.mem_cons_self, hn⟩
    · exact ⟨x, List.mem_cons_of_mem first (List.mem_cons_of_mem y hx), hn⟩

theorem mem_nodes_inherit (h : n ∈ (e.inherit loc).nodes) :
    n ∈ e.nodes ∨ n = e.inherit loc ∧ n.location = loc ∧ ∃ c, n.connective? = some c := by
  cases e with
  | binary own d l r =>
    cases loc with
    | none => exact Or.inl h
    | some place =>
      rcases List.mem_cons.1 h with rfl | below
      · exact Or.inr ⟨rfl, rfl, d, rfl⟩
      · exact Or.inl (List.mem_cons_of_mem _ below)
  | _ => exact Or.inl h

theorem location_inherit {place : Location} (h : (e.inherit (some place)).connective? = some c) :
    (e.inherit (some place)).location = some place := by
  obtain ⟨own, l, r, whole⟩ := connective?_eq_some_iff.1 h
  cases e with
  | binary _ _ _ _ => rfl
  | _ => cases whole

variable [Hashable Expr]

/-- A chain of which one operand remains, and this is a chain of `c`, the other connective. -/
def CollapsesTo (m : Expr) (c : Connective) : Prop :=
  m.connective? = some c.dual ∧ m.withoutRepeats.connective? = some c

/-- The location of `n`, if it has one, is that of a node of `e` which is of the same kind or has
collapsed to `n`. -/
def Sourced (e n : Expr) : Prop :=
  ∀ place, n.location = some place → ∃ m ∈ e.nodes, m.location = some place ∧
    (m.head = n.head ∨ ∃ c, m.CollapsesTo c ∧ n = m.withoutRepeats)

theorem Sourced.mono (h : x.Sourced n) (sub : x.nodes ⊆ e.nodes) : e.Sourced n := by
  intro place located
  obtain ⟨m, hm, source⟩ := h place located
  exact ⟨m, sub hm, source⟩

theorem sourced_of_mem_nodes (h : n ∈ e.nodes) : e.Sourced n :=
  fun _ located => ⟨n, h, located, Or.inl rfl⟩

/-- The root of a treated connective node has the location of the node, of whatever connective it
has become. -/
theorem sourced_root {d : Connective} {l r : Expr} (root : n = (binary loc d l r).withoutRepeats)
    (handed : n.location = loc) (connective : n.connective? = some c) :
    (binary loc d l r).Sourced n := by
  intro place located
  refine ⟨binary loc d l r, mem_nodes_self _, handed.symm.trans located, ?_⟩
  by_cases same : c = d
  · subst same
    exact Or.inl (head_eq_connective_iff.2 connective).symm
  · have other : d = c.dual := by
      revert same
      cases c <;> cases d <;> decide
    exact Or.inr ⟨c, ⟨congrArg some other, root ▸ connective⟩, root⟩

/-- A treated connective node is the chain of the operands that are kept, in place of the node. -/
theorem exists_withoutRepeats_binary_eq_inherit (loc : Option Location) (d : Connective)
    (l r : Expr) :
    ∃ first others, distinct ((gather d l).value ++ (gather d r).value) = first :: others ∧
      (binary loc d l r).withoutRepeats = (chain d first others).inherit loc := by
  rw [withoutRepeats_binary_eq_rebuild]
  exact exists_value_close_eq_inherit (binary loc d l r) d
    (List.append_ne_nil_of_left_ne_nil (gather_ne_nil d l) _)

theorem location_withoutRepeats {place : Location} {d : Connective} (root : e.connective? = some d)
    (result : e.withoutRepeats.connective? = some c) (located : e.location = some place) :
    e.withoutRepeats.location = some place := by
  obtain ⟨own, l, r, rfl⟩ := connective?_eq_some_iff.1 root
  obtain rfl : own = some place := located
  obtain ⟨first, others, -, whole⟩ := exists_withoutRepeats_binary_eq_inherit (some place) d l r
  rw [whole] at result ⊢
  exact location_inherit result

variable [LawfulHashable Expr]

/-- Where the locations of what two sides contribute have their sources, so have those of the treated
node. -/
theorem sourced_withoutRepeats_binary {d : Connective} {l r : Expr}
    (sides : ∀ x ∈ (gather d l).value ++ (gather d r).value, ∀ n ∈ x.nodes,
      (binary loc d l r).Sourced n)
    (h : n ∈ (binary loc d l r).withoutRepeats.nodes) : (binary loc d l r).Sourced n := by
  obtain ⟨first, others, list, whole⟩ := exists_withoutRepeats_binary_eq_inherit loc d l r
  rw [whole] at h
  rcases mem_nodes_inherit h with h | ⟨root, handed, c, connective⟩
  · -- a located node of the chain is one of an operand that is kept
    intro place located
    have present : n.location ≠ none := fun none => nomatch none.symm.trans located
    obtain ⟨x, hx, hn⟩ := mem_nodes_chain h present
    rw [← list] at hx
    exact sides x ((distinct_sublist _).subset hx) n hn place located
  · exact sourced_root (root.trans whole.symm) handed connective

/-- Each location of a treated expression, and of what it contributes to a chain around it, has its
source in the expression. -/
theorem sourced_withoutRepeats_and_gather (e : Expr) :
    (∀ n ∈ e.withoutRepeats.nodes, e.Sourced n) ∧
      ∀ c, ∀ x ∈ (gather c e).value, ∀ n ∈ x.nodes, e.Sourced n := by
  induction e with
  | literal loc v | column loc v =>
    refine ⟨fun n hn => sourced_of_mem_nodes hn, fun c x hx n hn => ?_⟩
    rw [List.mem_singleton.1 hx] at hn
    exact sourced_of_mem_nodes hn
  | not loc x ih =>
    have value : ∀ n ∈ (not loc x).withoutRepeats.nodes, (not loc x).Sourced n := by
      intro n hn
      rcases List.mem_cons.1 hn with rfl | hn
      · exact fun _ located => ⟨not loc x, mem_nodes_self _, located, Or.inl rfl⟩
      · exact (ih.1 n hn).mono (List.subset_cons_self _ _)
    refine ⟨value, fun c y hy n hn => ?_⟩
    rw [List.mem_singleton.1 hy] at hn
    exact value n hn
  | binary loc d l r ihl ihr =>
    have sides : ∀ x ∈ (gather d l).value ++ (gather d r).value, ∀ n ∈ x.nodes,
        (binary loc d l r).Sourced n := by
      intro x hx n hn
      rcases List.mem_append.1 hx with hx | hx
      · exact (ihl.2 d x hx n hn).mono (left_nodes_subset loc d l r)
      · exact (ihr.2 d x hx n hn).mono (right_nodes_subset loc d l r)
    refine ⟨fun n hn => sourced_withoutRepeats_binary sides hn, fun c x hx n hn => ?_⟩
    rw [value_gather_binary] at hx
    split at hx
    · next same =>
      subst same
      exact sides x hx n hn
    · exact sourced_withoutRepeats_binary sides (nodes_subset_of_mem_operands hx hn)

/-- Whether a chain collapses can be read off its shape, for no hash has a say in it. -/
theorem collapsesTo_iff :
    m.CollapsesTo c ↔
      m.connective? = some c.dual ∧ m.shape.reduced.operands c ≠ [m.shape.reduced] := by
  rw [CollapsesTo, ← shape_withoutRepeats, ne_eq, operands_shape_eq_singleton_iff, ne_eq,
    Classical.not_not]

instance : Decidable (m.CollapsesTo c) := decidable_of_iff _ collapsesTo_iff.symm

/-! ## Where every location is kept -/

/-- Each location of the result marks a node of the kind that it marked before. -/
def LocationsKept (e : Expr) : Prop :=
  ∀ n ∈ e.withoutRepeats.nodes, ∀ place, n.location = some place →
    ∃ m ∈ e.nodes, m.location = some place ∧ m.head = n.head

omit [LawfulHashable Expr] in
theorem CollapsesTo.withoutRepeats_head (h : m.CollapsesTo c) :
    m.withoutRepeats.head = .connective c := head_eq_connective_iff.2 h.2

omit [LawfulHashable Expr] in
theorem LocationsKept.exists_of_collapsesTo (kept : e.LocationsKept) (collapsed : m.CollapsesTo c)
    (seen : m.withoutRepeats ∈ e.withoutRepeats.nodes) {place : Location}
    (located : m.location = some place) :
    ∃ m' ∈ e.nodes, m'.location = some place ∧ m'.head = .connective c := by
  have handed := location_withoutRepeats collapsed.1 collapsed.2 located
  obtain ⟨m', hm, same, head⟩ := kept _ seen place handed
  exact ⟨m', hm, same, head.trans collapsed.withoutRepeats_head⟩

theorem locationsKept_iff (e : Expr) :
    e.LocationsKept ↔ ∀ m ∈ e.nodes, ∀ c place, m.CollapsesTo c → m.location = some place →
      m.withoutRepeats ∈ e.withoutRepeats.nodes →
      ∃ m' ∈ e.nodes, m'.location = some place ∧ m'.head = .connective c := by
  constructor
  · intro kept m _ c place collapsed located seen
    exact kept.exists_of_collapsesTo collapsed seen located
  · intro h n hn place located
    obtain ⟨m, hm, same, head | ⟨c, collapsed, rfl⟩⟩ :=
      (sourced_withoutRepeats_and_gather e).1 n hn place located
    · exact ⟨m, hm, same, head⟩
    · rw [collapsed.withoutRepeats_head]
      exact h m hm c place collapsed same hn

end Expr

/-- A conjunction of two equal disjunctions with one location for all, as an expansion would give
them. -/
theorem locationsKept_iff_expanded :
    let either := Expr.binary (some ⟨1, 9⟩) .or (.column none ⟨none, "a"⟩) (.column none ⟨none, "b"⟩)
    let both := Expr.binary (some ⟨1, 9⟩) .and either either
    both.CollapsesTo .or ∧ (Expr.not (some ⟨1, 1⟩) both).LocationsKept := by
  intro either both
  have only : ∀ m ∈ (Expr.not (some ⟨1, 1⟩) both).nodes, ∀ c ∈ Connective.all,
      m.CollapsesTo c → m.location = some ⟨1, 9⟩ ∧ c = .or := by decide
  have joined : either ∈ (Expr.not (some ⟨1, 1⟩) both).nodes := by
    simp [both, either, Expr.nodes]
  refine ⟨by decide, (Expr.locationsKept_iff _).2 ?_⟩
  intro m hm c place collapsed located _
  obtain ⟨same, rfl⟩ := only m hm c (Connective.mem_all c) collapsed
  exact ⟨either, joined, same.symm.trans located, rfl⟩

/-- Of two equal disjunctions the first remains, with the location of the conjunction that is gone;
its own location is lost. -/
theorem not_locationsKept_collapsed :
    let a := Expr.column (some ⟨1, 1⟩) ⟨none, "a"⟩
    let b := Expr.column (some ⟨1, 6⟩) ⟨none, "b"⟩
    let a' := Expr.column (some ⟨1, 13⟩) ⟨none, "a"⟩
    let b' := Expr.column (some ⟨1, 18⟩) ⟨none, "b"⟩
    let e := Expr.binary (some ⟨1, 9⟩) .and (.binary (some ⟨1, 3⟩) .or a b)
      (.binary (some ⟨1, 15⟩) .or a' b')
    ¬ e.LocationsKept := by
  intro a b a' b' e kept
  have collapsed : e.CollapsesTo .or := by decide
  have elsewhere : ∀ m ∈ e.nodes, m.location = some ⟨1, 9⟩ → m.head ≠ .connective .or := by decide
  obtain ⟨m, hm, same, head⟩ := kept.exists_of_collapsesTo collapsed (Expr.mem_nodes_self _) rfl
  exact elsewhere m hm same head

end QueryLogic
