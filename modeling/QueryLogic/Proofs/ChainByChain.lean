import Mathlib.Algebra.Ring.Nat
import QueryLogic.Proofs.FixedPoint
import QueryLogic.Proofs.Routes
/-!
The pass over repeats as it goes from chain to chain. At a connective it does not call itself on the
two sides: it lists the operands of the whole chain, treats each of them, and takes the results apart
again. That this comes to an end rests on where the operands stand: each is at a node below the root of
the chain, so it has fewer nodes than the chain. What is left of the operands is then put together,
with something to fall back on in case nothing is left. This never happens: a chain has operands, a
treated operand has operands again, and the first of all these is kept.

What is proved:
  1. `Expr.exists_node?_of_mem_operands`, `Expr.inside_of_mem_operands`: the operands of a chain are
     nodes of the expression, and nodes below its root if the chain has more than one.
  2. `Expr.wellFounded_next`: there is no endless way from an expression to one that is treated on its
     behalf, and so on.
  3. `Expr.size_withoutRepeats_le`: the treated expression has no more nodes than the given one.
  4. `Expr.keptOperands_ne_nil`: something is kept of every chain.
  5. `Expr.chainwise_eq_dropRepeats`: whatever is fallen back on, the pass from chain to chain yields and
     reports what the pass by sides does.
-/
namespace QueryLogic.Expr

variable {c : Connective}

/-! ## Where the operands of a chain stand -/

/-- The expression stands at a node of `e` below the root. -/
def Inside (x e : Expr) : Prop := ∃ r : Route, r ≠ [] ∧ e.node? r = some x

theorem size_lt_of_operand? {e x : Expr} {m : Move} (h : e.operand? m = some x) :
    x.size < e.size := by
  cases e <;> cases m <;> cases h <;> simp only [size] <;> omega

theorem size_le_of_node? {e x : Expr} {r : Route} (h : e.node? r = some x) : x.size ≤ e.size := by
  induction r generalizing e with
  | nil => exact Nat.le_of_eq (congrArg size (Option.some.inj h).symm)
  | cons m r ih =>
    obtain ⟨y, step, rest⟩ := Option.bind_eq_some_iff.1 h
    exact Nat.le_trans (ih rest) (Nat.le_of_lt (size_lt_of_operand? step))

theorem size_lt_of_inside {e x : Expr} (h : x.Inside e) : x.size < e.size := by
  obtain ⟨r, below, found⟩ := h
  cases r with
  | nil => exact absurd rfl below
  | cons m r =>
    obtain ⟨y, step, rest⟩ := Option.bind_eq_some_iff.1 found
    exact Nat.lt_of_le_of_lt (size_le_of_node? rest) (size_lt_of_operand? step)

theorem exists_node?_of_mem_operands {e x : Expr} (h : x ∈ e.operands c) :
    ∃ r : Route, e.node? r = some x := by
  induction e using chain_induction c with
  | single e alone =>
    rw [alone] at h
    rw [List.mem_singleton.1 h]
    exact ⟨[], rfl⟩
  | joined loc l r ihl ihr =>
    rw [operands_binary] at h
    rcases List.mem_append.1 h with h | h
    · obtain ⟨s, found⟩ := ihl h
      exact ⟨.left :: s, found⟩
    · obtain ⟨s, found⟩ := ihr h
      exact ⟨.right :: s, found⟩

theorem size_le_of_mem_operands {c : Connective} {e x : Expr} (h : x ∈ e.operands c) :
    x.size ≤ e.size := by
  obtain ⟨r, found⟩ := exists_node?_of_mem_operands h
  exact size_le_of_node? found

/-- An operand of a chain is not the chain itself, as it does not go on with it. -/
theorem inside_of_mem_operands {e x : Expr} (root : e.connective? = some c)
    (h : x ∈ e.operands c) : x.Inside e := by
  obtain ⟨r, found⟩ := exists_node?_of_mem_operands h
  refine ⟨r, ?_, found⟩
  rintro rfl
  apply connective?_ne_of_mem_operands h
  rw [← Option.some.inj found]
  exact root

/-! ## The expressions that are treated on behalf of another one -/

/-- What is treated first: below a negation its operand, below a connective the operands of the whole
chain. -/
def next : Expr → List Expr
  | literal _ _ => []
  | column _ _ => []
  | not _ x => [x]
  | binary loc c l r => (binary loc c l r).operands c

theorem inside_of_mem_next {e x : Expr} (h : x ∈ e.next) : x.Inside e := by
  cases e with
  | literal loc v => cases h
  | column loc n => cases h
  | not loc y =>
    rw [List.mem_singleton.1 h]
    exact ⟨[.operand], List.cons_ne_nil _ _, rfl⟩
  | binary loc c l r => exact inside_of_mem_operands rfl h

theorem size_lt_of_mem_next {e x : Expr} (h : x ∈ e.next) : x.size < e.size :=
  size_lt_of_inside (inside_of_mem_next h)

theorem wellFounded_next : WellFounded fun x e : Expr => x ∈ e.next :=
  Subrelation.wf size_lt_of_mem_next (InvImage.wf size Nat.lt_wfRel.wf)

/-! ## Sizes -/

/-- The number of nodes of some expressions that are joined to a chain, counted with one connective too
many. -/
def joinedSize (es : List Expr) : Nat := (es.map fun x => x.size + 1).sum

theorem joinedSize_cons (x : Expr) (es : List Expr) :
    joinedSize (x :: es) = x.size + 1 + joinedSize es := List.sum_cons

theorem joinedSize_append (es fs : List Expr) :
    joinedSize (es ++ fs) = joinedSize es + joinedSize fs := by
  rw [joinedSize, List.map_append, List.sum_append]
  rfl

theorem joinedSize_le_of_sublist {es fs : List Expr} (h : es.Sublist fs) :
    joinedSize es ≤ joinedSize fs := by
  induction h with
  | slnil => exact Nat.le_refl 0
  | cons x h ih =>
    rw [joinedSize_cons]
    omega
  | cons_cons x h ih =>
    rw [joinedSize_cons, joinedSize_cons]
    omega

theorem joinedSize_operands (c : Connective) (e : Expr) :
    joinedSize (e.operands c) = e.size + 1 := by
  induction e using chain_induction c with
  | single e alone => rw [alone, joinedSize_cons]; rfl
  | joined loc l r ihl ihr =>
    rw [operands_binary, joinedSize_append, ihl, ihr, size]
    omega

theorem size_chain (c : Connective) (first : Expr) (others : List Expr) :
    (chain c first others).size + 1 = joinedSize (first :: others) := by
  induction others generalizing first with
  | nil => rfl
  | cons x others ih =>
    show (chain c (binary none c first x) others).size + 1 = _
    rw [ih, joinedSize_cons, joinedSize_cons, joinedSize_cons, size]
    omega

theorem size_inherit (loc : Option Location) (e : Expr) : (e.inherit loc).size = e.size := by
  cases e <;> rfl

section Repeats

variable [Hashable Expr] [LawfulHashable Expr]

omit [LawfulHashable Expr] in
theorem size_close (node : Expr) (c : Connective) {es : List Expr} (nonempty : es ≠ []) :
    (close node c es).value.size + 1 = joinedSize (distinct es) := by
  obtain ⟨first, others, list, closed⟩ := exists_value_close_eq_inherit node c nonempty
  rw [closed, list, size_inherit, size_chain]

/-- A treated expression is no larger, and what it contributes to a chain around it takes up no more. -/
theorem size_withoutRepeats_le_and_joinedSize_gather_le (e : Expr) :
    e.withoutRepeats.size ≤ e.size ∧ ∀ c, joinedSize (gather c e).value ≤ e.size + 1 := by
  apply dropRepeats_induction (P := fun e treated => treated.value.size ≤ e.size)
    (G := fun _ e es => joinedSize es.value ≤ e.size + 1)
  case literal => exact fun _ _ => Nat.le_refl _
  case column => exact fun _ _ => Nat.le_refl _
  case not => exact fun _ _ _ operand => Nat.succ_le_succ operand
  case joined =>
    intro loc c l r ls rs left right
    rw [joinedSize_append, size]
    omega
  case closed =>
    intro loc c l r es nonempty sides
    have kept := joinedSize_le_of_sublist (distinct_sublist es.value)
    have closed := size_close (binary loc c l r) c nonempty
    rw [Logged.value_bind]
    omega
  case apart =>
    intro c e treated smaller
    rw [Logged.value_map, joinedSize_operands]
    exact Nat.succ_le_succ smaller

theorem size_withoutRepeats_le (e : Expr) : e.withoutRepeats.size ≤ e.size :=
  (size_withoutRepeats_le_and_joinedSize_gather_le e).1

end Repeats

variable [Hashable Expr]

/-! ## What is kept of a chain -/

/-- The operands that a chain is put together from again, as in `withoutRepeats_binary`. -/
def keptOperands (c : Connective) (e : Expr) : List Expr :=
  distinct ((e.operands c).flatMap fun x => x.withoutRepeats.operands c)

theorem keptOperands_ne_nil (c : Connective) (e : Expr) : keptOperands c e ≠ [] := by
  rw [keptOperands, ← value_gather]
  exact distinct_ne_nil (gather_ne_nil c e)

omit [Hashable Expr] in
theorem isSome_chain? (c : Connective) {es : List Expr} (h : es ≠ []) : (chain? c es).isSome := by
  obtain ⟨first, others, rfl⟩ := List.exists_cons_of_ne_nil h
  rfl

/-! ## The pass from chain to chain -/

/-- Closes a chain like `close`, but falls back on `stuck` when no operand is left. -/
def closeOr (stuck : Expr → Logged Expr) (node : Expr) (c : Connective) (es : List Expr) :
    Logged Expr := do
  let kept := distinct es
  Logged.reportIf (kept.length < es.length) (.removedRepeats c es.length kept.length)
  match chain? c kept with
  | some e => pure (e.inherit node.location)
  | none => stuck node

theorem closeOr_eq_close (stuck : Expr → Logged Expr) (node : Expr) {es : List Expr}
    (nonempty : es ≠ []) : closeOr stuck node c es = close node c es := by
  obtain ⟨e, whole⟩ := Option.isSome_iff_exists.1 (isSome_chain? c (distinct_ne_nil nonempty))
  simp only [closeOr, close, rebuild_of_chain? whole, whole]

/-- The expression without operands that repeat an earlier one of their chain, as `dropRepeats` has it,
but with a call for each operand of a chain in place of one for each side. -/
def chainwise (stuck : Expr → Logged Expr) (e : Expr) : Logged Expr :=
  match e with
  | literal loc v => pure (literal loc v)
  | column loc n => pure (column loc n)
  | not loc x => not loc <$> chainwise stuck x
  | binary loc c l r => do
    let parts ← ((binary loc c l r).operands c).attach.mapM fun x =>
      operands c <$> chainwise stuck x.1
    closeOr stuck (binary loc c l r) c parts.flatten
termination_by e.size
decreasing_by
  · exact size_lt_of_mem_next List.mem_cons_self
  · exact size_lt_of_mem_next x.2

/-- What is gathered side by side is what is gathered operand by operand. -/
theorem gather_eq_mapM (c : Connective) (e : Expr) :
    gather c e =
      List.flatten <$> (e.operands c).mapM fun x => operands c <$> dropRepeats x := by
  rw [Logged.mapM_eq]
  show Logged.mk (gather c e).value (gather c e).events = _
  rw [value_gather, events_gather]
  rfl

theorem chainwise_eq_dropRepeats (stuck : Expr → Logged Expr) (e : Expr) :
    chainwise stuck e = dropRepeats e := by
  induction e using wellFounded_next.induction with
  | _ e ih =>
    cases e with
    | literal loc v => rw [chainwise, dropRepeats]
    | column loc n => rw [chainwise, dropRepeats]
    | not loc x => rw [chainwise, dropRepeats, ih x List.mem_cons_self, bind_pure_comp]
    | binary loc c l r =>
      have calls : ((binary loc c l r).operands c).attach.mapM
            (fun x => operands c <$> chainwise stuck x.1) =
          ((binary loc c l r).operands c).mapM fun x => operands c <$> dropRepeats x := by
        have one : ∀ x ∈ (binary loc c l r).operands c,
            operands c <$> chainwise stuck x = operands c <$> dropRepeats x :=
          fun x hx => congrArg (operands c <$> ·) (ih x hx)
        rw [List.mapM_subtype one, List.unattach_attach]
      have nonempty := gather_ne_nil c (binary loc c l r)
      rw [gather_eq_mapM, Logged.value_map] at nonempty
      rw [chainwise, calls, dropRepeats_binary, gather_eq_mapM, bind_map_left]
      -- a computation that follows depends on the value of the first one only
      show Logged.mk (closeOr stuck _ c _).value (_ ++ (closeOr stuck _ c _).events) = _
      rw [closeOr_eq_close stuck _ nonempty]
      rfl

theorem mem_operands_and_chainwise_eq :
    (∀ (e : Expr) (c : Connective), e.operands c ≠ [] ∧
      (∀ x ∈ e.operands c, (∃ r : Route, e.node? r = some x) ∧ x.connective? ≠ some c) ∧
      (e.connective? = some c → ∀ x ∈ e.operands c, x.Inside e ∧ x.size < e.size)) ∧
    (WellFounded fun x e : Expr => x ∈ e.next) ∧
    (∀ (e : Expr) (c : Connective),
      keptOperands c e ≠ [] ∧ (chain? c (keptOperands c e)).isSome) ∧
    ∀ (stuck : Expr → Logged Expr) (e : Expr), chainwise stuck e = dropRepeats e := by
  refine ⟨fun e c => ⟨operands_ne_nil c e, ?_, ?_⟩, wellFounded_next, fun e c => ?_,
    chainwise_eq_dropRepeats⟩
  · intro x hx
    exact ⟨exists_node?_of_mem_operands hx, connective?_ne_of_mem_operands hx⟩
  · intro root x hx
    have inside := inside_of_mem_operands root hx
    exact ⟨inside, size_lt_of_inside inside⟩
  · have kept := keptOperands_ne_nil c e
    exact ⟨kept, isSome_chain? c kept⟩

end QueryLogic.Expr

namespace QueryLogic

/-- An operand that is left with one conjunction and so joins the chain that it stands in. -/
theorem mem_operands_and_chainwise_eq_collapsed :
    let a := Expr.column (some ⟨1, 1⟩) ⟨none, "a"⟩
    let both := Expr.binary none .and (.column none ⟨none, "b"⟩) a
    let inner := Expr.binary none .or both both
    let e := Expr.binary none .and a inner
    e.connective? = some .and ∧ inner ∈ e.operands .and ∧ inner.connective? ≠ some .and ∧
      inner.Inside e ∧ inner.size < e.size ∧ (Expr.chain? .and (Expr.keptOperands .and e)).isSome ∧
      Expr.chainwise (fun _ => pure inner) e = Expr.dropRepeats e := by
  intro a both inner e
  obtain ⟨operands, -, kept, pass⟩ := Expr.mem_operands_and_chainwise_eq
  obtain ⟨-, nodes, below⟩ := operands e .and
  have root : e.connective? = some .and := rfl
  have mem : inner ∈ e.operands .and := List.mem_cons_of_mem a List.mem_cons_self
  obtain ⟨inside, smaller⟩ := below root inner mem
  exact ⟨root, mem, (nodes inner mem).2, inside, smaller, (kept e .and).2, pass _ e⟩

end QueryLogic
