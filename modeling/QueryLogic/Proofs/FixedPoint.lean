import QueryLogic.Proofs.ChainNormal
/-!
Conditions that dropping repeats leaves as they are, node for node. Equality `==` would not notice
that a location has moved or that a literal is spelled in another way, so this is about identity `=`.
A chain that is put together from its operands has no location inside; the root of the chain keeps
the one it had. Hence a condition is left alone when its chains are in normal form and have no
location but at their roots, and every result of the pass is such a condition.

What is proved:
  1. `Expr.chain?_operands`: such a condition is the chain of its operands, the location of the root
     aside.
  2. `Expr.withoutRepeats_eq_self`: the pass returns it unchanged.
  3. `Expr.placedAtRoots_withoutRepeats`: the pass leaves no location inside a chain, also where a
     chain collapses and hands its location on.
  4. `Expr.withoutRepeats_withoutRepeats_and_eq_self_iff`: a second run changes no node, and these
     are all the conditions that a first run leaves alone.
-/
namespace QueryLogic.Expr

variable {c : Connective}

/-! ## Putting a chain in place of a node -/

/-- The expression in place of a node at `loc`: a connective takes the location of that node over,
if it has one. -/
def inherit (loc : Option Location) : Expr → Expr
  | binary own c l r => binary (loc.or own) c l r
  | e => e

theorem inherit_eq_self {e : Expr} (h : e.connective? = none) (loc : Option Location) :
    e.inherit loc = e := by
  cases e with
  | binary => cases h
  | _ => rfl

theorem rebuild_of_chain? {node : Expr} {kept : List Expr} {e : Expr} (h : chain? c kept = some e) :
    rebuild node c kept = e.inherit node.location := by
  rw [rebuild, h]
  cases e <;> rfl

theorem rebuild_cons (node : Expr) (c : Connective) (first : Expr) (others : List Expr) :
    rebuild node c (first :: others) = (chain c first others).inherit node.location :=
  rebuild_of_chain? rfl

theorem chain?_concat {es : List Expr} {e : Expr} (h : chain? c es = some e) (x : Expr) :
    chain? c (es ++ [x]) = some (binary none c e x) := by
  cases es with
  | nil => cases h
  | cons first others =>
    rw [chain?, Option.some.injEq] at h
    show some ((others ++ [x]).foldl (binary none c) first) = some (binary none c e x)
    rw [List.foldl_append, ← h]
    rfl

/-! ## Conditions that are left alone -/

/-- No node that goes on with the chain of the node above it has a location. -/
def PlacedAtRoots : Expr → Prop
  | literal _ _ => True
  | column _ _ => True
  | not _ x => x.PlacedAtRoots
  | binary _ c l r =>
    l.PlacedAtRoots ∧ r.PlacedAtRoots ∧ (l.connective? = some c → l.location = none) ∧
      (r.connective? = some c → r.location = none)

theorem withLocation_eq_self {e : Expr} {loc : Option Location} (h : e.location = loc) :
    e.withLocation loc = e := by
  subst h
  cases e <;> rfl

/-- Taking the chain of `c` apart and putting it together again loses the location of its root and
nothing else. -/
theorem chain?_operands {e : Expr} (normal : e.ChainNormal) (placed : e.PlacedAtRoots)
    (c : Connective) :
    chain? c (e.operands c) =
      some (if e.connective? = some c then e.withLocation none else e) := by
  induction e with
  | literal loc v => rfl
  | column loc n => rfl
  | not loc x _ => rfl
  | binary loc d l r ihl _ =>
    by_cases same : d = c
    · subst same
      obtain ⟨hl, -, other, -⟩ := normal
      obtain ⟨pl, -, bare, -⟩ := placed
      have left : chain? d (l.operands d) = some l := by
        rw [ihl hl pl]
        split
        · next root => rw [withLocation_eq_self (bare root)]
        · rfl
      have root : (binary loc d l r).connective? = some d := rfl
      rw [if_pos root, operands_binary, operands_eq_singleton other]
      exact chain?_concat left r
    · have root : (binary loc d l r).connective? ≠ some c :=
        fun h => same (Option.some.inj h)
      rw [if_neg root, operands_eq_singleton root]
      rfl

theorem rebuild_operands {loc : Option Location} {l r : Expr}
    (normal : (binary loc c l r).ChainNormal) (placed : (binary loc c l r).PlacedAtRoots) :
    rebuild (binary loc c l r) c ((binary loc c l r).operands c) = binary loc c l r := by
  have whole := chain?_operands normal placed c
  rw [if_pos (show (binary loc c l r).connective? = some c from rfl)] at whole
  rw [rebuild_of_chain? whole]
  show binary (loc.or none) c l r = binary loc c l r
  rw [Option.or_none]

variable [Hashable Expr] [LawfulHashable Expr]

/-- Such a condition is unchanged, and contributes just its operands to a chain around it. -/
theorem withoutRepeats_eq_self_and_value_gather {e : Expr} (normal : e.ChainNormal)
    (placed : e.PlacedAtRoots) :
    e.withoutRepeats = e ∧ ∀ c, (gather c e).value = e.operands c := by
  induction e with
  | literal loc v => exact ⟨rfl, fun _ => rfl⟩
  | column loc n => exact ⟨rfl, fun _ => rfl⟩
  | not loc x ih =>
    have value : (not loc x).withoutRepeats = not loc x := congrArg (not loc) (ih normal placed).1
    exact ⟨value, fun _ => congrArg (fun y => [y]) value⟩
  | binary loc d l r ihl ihr =>
    have ⟨hl, hr, _, unequal⟩ := normal
    have ⟨pl, pr, _⟩ := placed
    have sides : (gather d l).value ++ (gather d r).value = (binary loc d l r).operands d := by
      rw [(ihl hl pl).2, (ihr hr pr).2, operands_binary]
    have fresh : distinct ((binary loc d l r).operands d) = (binary loc d l r).operands d := by
      rw [distinct_eq_eraseDups]
      apply eraseDups_of_pairwise
      apply unequal.imp
      intro a b different
      rw [BEq.comm, different]
    have value : (binary loc d l r).withoutRepeats = binary loc d l r := by
      rw [withoutRepeats_binary_eq_rebuild, sides, fresh]
      exact rebuild_operands normal placed
    refine ⟨value, fun c => ?_⟩
    rw [value_gather_binary]
    split
    · next same => rw [← same, sides]
    · rw [value]

theorem withoutRepeats_eq_self {e : Expr} (normal : e.ChainNormal) (placed : e.PlacedAtRoots) :
    e.withoutRepeats = e :=
  (withoutRepeats_eq_self_and_value_gather normal placed).1

/-! ## Locations of the result -/

omit [Hashable Expr] [LawfulHashable Expr] in
theorem placedAtRoots_of_mem_operands {e x : Expr} (placed : e.PlacedAtRoots)
    (hx : x ∈ e.operands c) : x.PlacedAtRoots ∧ x.connective? ≠ some c := by
  refine ⟨?_, connective?_ne_of_mem_operands hx⟩
  induction e using chain_induction c with
  | single e alone =>
    rw [alone] at hx
    rw [List.mem_singleton.1 hx]
    exact placed
  | joined loc l r ihl ihr =>
    rw [operands_binary] at hx
    rcases List.mem_append.1 hx with hx | hx
    · exact ihl placed.1 hx
    · exact ihr placed.2.1 hx

omit [Hashable Expr] [LawfulHashable Expr] in
theorem placedAtRoots_chain {first : Expr} {others : List Expr} (placed : first.PlacedAtRoots)
    (bare : first.connective? = some c → first.location = none)
    (single : ∀ x ∈ others, x.PlacedAtRoots ∧ x.connective? ≠ some c) :
    (chain c first others).PlacedAtRoots := by
  induction others generalizing first with
  | nil => exact placed
  | cons x others ih =>
    obtain ⟨px, other⟩ := single x List.mem_cons_self
    show (chain c (binary none c first x) others).PlacedAtRoots
    -- the node that joins the first two operands is the new first operand
    apply ih
    · exact ⟨placed, px, bare, fun h => absurd h other⟩
    · exact fun _ => rfl
    · exact fun y hy => single y (List.mem_cons_of_mem x hy)

omit [Hashable Expr] [LawfulHashable Expr] in
theorem placedAtRoots_inherit {loc : Option Location} {e : Expr} :
    (e.inherit loc).PlacedAtRoots ↔ e.PlacedAtRoots := by
  cases e <;> exact Iff.rfl

omit [Hashable Expr] [LawfulHashable Expr] in
theorem placedAtRoots_rebuild (node : Expr) {kept : List Expr} (nonempty : kept ≠ [])
    (single : ∀ x ∈ kept, x.PlacedAtRoots ∧ x.connective? ≠ some c) :
    (rebuild node c kept).PlacedAtRoots := by
  obtain ⟨first, others, rfl⟩ := List.exists_cons_of_ne_nil nonempty
  obtain ⟨placed, other⟩ := single first List.mem_cons_self
  rw [rebuild_cons, placedAtRoots_inherit]
  apply placedAtRoots_chain placed
  · exact fun h => absurd h other
  · exact fun x hx => single x (List.mem_cons_of_mem first hx)

omit [LawfulHashable Expr] in
/-- A closed chain is the chain of the operands that are kept, in place of the node. -/
theorem exists_value_close_eq_inherit (node : Expr) (c : Connective) {es : List Expr}
    (nonempty : es ≠ []) :
    ∃ first others, distinct es = first :: others ∧
      (close node c es).value = (chain c first others).inherit node.location := by
  obtain ⟨first, others, list⟩ := List.exists_cons_of_ne_nil (distinct_ne_nil nonempty)
  refine ⟨first, others, list, ?_⟩
  show rebuild node c (distinct es) = _
  rw [list, rebuild_cons]

omit [LawfulHashable Expr] in
/-- Something always remains of the operands of two sides. -/
theorem distinct_gather_ne_nil (c : Connective) (l r : Expr) :
    distinct ((gather c l).value ++ (gather c r).value) ≠ [] :=
  distinct_ne_nil (List.append_ne_nil_of_left_ne_nil (gather_ne_nil c l) _)

/-- A treated expression has locations at the roots of chains only, and so has what it contributes
to a chain around it. -/
theorem placedAtRoots_withoutRepeats_and_gather (e : Expr) :
    e.withoutRepeats.PlacedAtRoots ∧
      ∀ c, ∀ x ∈ (gather c e).value, x.PlacedAtRoots ∧ x.connective? ≠ some c := by
  apply dropRepeats_induction (P := fun _ treated => treated.value.PlacedAtRoots)
    (G := fun c _ es => ∀ x ∈ es.value, x.PlacedAtRoots ∧ x.connective? ≠ some c)
  case literal => exact fun _ _ => trivial
  case column => exact fun _ _ => trivial
  case not => exact fun _ _ _ placed => placed
  case joined =>
    intro loc c l r ls rs left right
    exact List.forall_mem_append.2 ⟨left, right⟩
  case closed =>
    intro loc c l r es nonempty sides
    apply placedAtRoots_rebuild _ (distinct_ne_nil nonempty)
    exact fun x hx => sides x ((distinct_sublist _).subset hx)
  case apart => exact fun c e treated placed x hx => placedAtRoots_of_mem_operands placed hx

theorem placedAtRoots_withoutRepeats (e : Expr) : e.withoutRepeats.PlacedAtRoots :=
  (placedAtRoots_withoutRepeats_and_gather e).1

theorem withoutRepeats_withoutRepeats_and_eq_self_iff (e : Expr) :
    e.withoutRepeats.withoutRepeats = e.withoutRepeats ∧
      (e.withoutRepeats = e ↔ e.ChainNormal ∧ e.PlacedAtRoots) := by
  have normal := chainNormal_withoutRepeats e
  have placed := placedAtRoots_withoutRepeats e
  refine ⟨withoutRepeats_eq_self normal placed, ?_⟩
  constructor
  · intro h
    rw [← h]
    exact ⟨normal, placed⟩
  · intro h
    exact withoutRepeats_eq_self h.1 h.2

end QueryLogic.Expr

namespace QueryLogic

/-- A chain that collapses to one operand and hands its location on to it; the operand that goes is
spelled in another way. -/
theorem withoutRepeats_withoutRepeats_and_eq_self_iff_collapsed :
    let a := Expr.column (some ⟨1, 5⟩) ⟨none, "a"⟩
    let short := Expr.literal none (.decimal ⟨15, 1⟩)
    let long := Expr.literal (some ⟨2, 9⟩) (.decimal ⟨150, 2⟩)
    let e := Expr.binary (some ⟨2, 1⟩) .or (.binary (some ⟨1, 7⟩) .and a short)
      (.binary none .and a long)
    e.withoutRepeats.withoutRepeats = e.withoutRepeats ∧ e.withoutRepeats ≠ e := by
  intro a short long e
  obtain ⟨again, unchanged⟩ := Expr.withoutRepeats_withoutRepeats_and_eq_self_iff e
  have repeated : ¬ e.ChainNormal := by decide
  exact ⟨again, fun h => repeated (unchanged.1 h).1⟩

end QueryLogic
