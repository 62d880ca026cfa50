import QueryLogic.Distinct
import QueryLogic.Event
import QueryLogic.Expr.Chain
import QueryLogic.Expr.Hash
/-!
Dropping the operands of a chain that repeat an earlier one. The operands are treated first; one of
them may then turn out to be a chain of the same connective, because all that kept it apart were
repeats, and in that case its operands join the chain. Of equal operands the first is kept, and the
rest of the chain is put together from the left.

The pass is one recursion over the expression. `dropRepeats` treats an expression; `gather` lists
the operands that the treated expression contributes to a chain of a given connective around it.
What is to be shown of both goes by `dropRepeats_induction`.
-/
namespace QueryLogic.Expr

variable [Hashable Expr]

/-- A chain of distinct operands in place of the connective node `node`. When the result is a
connective it takes over the location of the node, if that has one. -/
def rebuild (node : Expr) (c : Connective) (kept : List Expr) : Expr :=
  match chain? c kept with
  | some (binary loc d l r) => binary (node.location.or loc) d l r
  | some e => e
  | none => node

/-- Keeps the first occurrences among the operands that stand in place of `node`, and reports it
when there are fewer of them. -/
def close (node : Expr) (c : Connective) (es : List Expr) : Logged Expr := do
  let kept := distinct es
  Logged.reportIf (kept.length < es.length) (.removedRepeats c es.length kept.length)
  pure (rebuild node c kept)

mutual

/-- The expression without operands that repeat an earlier one of their chain. -/
def dropRepeats : Expr → Logged Expr
  | literal loc v => pure (literal loc v)
  | column loc n => pure (column loc n)
  | not loc x => do return not loc (← dropRepeats x)
  | binary loc c l r => do
    let ls ← gather c l
    let rs ← gather c r
    close (binary loc c l r) c (ls ++ rs)

/-- The operands that the treated expression has in a chain of `c`. -/
def gather (c : Connective) : Expr → Logged (List Expr)
  | literal loc v => pure [literal loc v]
  | column loc n => pure [column loc n]
  | not loc x => do return [not loc (← dropRepeats x)]
  | binary loc d l r => do
    let ls ← gather d l
    let rs ← gather d r
    if d = c then return ls ++ rs
    return operands c (← close (binary loc d l r) d (ls ++ rs))

end

/-- The expression without repeated operands. -/
def withoutRepeats (e : Expr) : Expr := (dropRepeats e).value

/-- What an expression contributes to a chain around it are its own operands in that chain, each
treated and taken apart again in case it has become a chain of the same connective. -/
theorem value_gather (c : Connective) (e : Expr) :
    (gather c e).value = (e.operands c).flatMap fun x => x.withoutRepeats.operands c := by
  induction e with
  | literal loc v => rfl
  | column loc n => rfl
  | not loc x _ => rfl
  | binary loc d l r ihl ihr =>
    by_cases h : d = c
    · subst h
      simp [gather, operands, ihl, ihr]
    · simp [gather, operands, h, withoutRepeats, dropRepeats]

theorem events_gather (c : Connective) (e : Expr) :
    (gather c e).events = (e.operands c).flatMap fun x => (dropRepeats x).events := by
  induction e with
  | literal loc v => rfl
  | column loc n => rfl
  | not loc x _ => simp [gather, operands, dropRepeats]
  | binary loc d l r ihl ihr =>
    by_cases h : d = c
    · subst h
      simp [gather, operands, ihl, ihr]
    · simp [gather, operands, h, dropRepeats]

/-- A treated chain is made of the first occurrences among all contributions. -/
theorem withoutRepeats_binary (loc : Option Location) (c : Connective) (l r : Expr) :
    let e := binary loc c l r
    e.withoutRepeats =
      rebuild e c (distinct ((e.operands c).flatMap fun x => x.withoutRepeats.operands c)) := by
  simp [withoutRepeats, dropRepeats, close, operands, value_gather]

omit [Hashable Expr] in
theorem shape_rebuild (node : Expr) {c : Connective} {kept : List Expr} {e : Expr}
    (h : chain? c kept = some e) : (rebuild node c kept).shape = e.shape := by
  cases e <;> simp [rebuild, h, shape]

theorem withoutRepeats_binary_eq_rebuild (loc : Option Location) (c : Connective) (l r : Expr) :
    (binary loc c l r).withoutRepeats =
      rebuild (binary loc c l r) c (distinct ((gather c l).value ++ (gather c r).value)) := by
  simp [withoutRepeats, dropRepeats, close]

/-- A connective node contributes what its sides do to a chain of its own connective, and the
operands of what it has become to a chain of the other one. -/
theorem value_gather_binary (c : Connective) (loc : Option Location) (d : Connective) (l r : Expr) :
    (gather c (binary loc d l r)).value =
      if d = c then (gather c l).value ++ (gather c r).value
      else operands c (binary loc d l r).withoutRepeats := by
  by_cases h : d = c
  · subst h
    simp [gather]
  · simp [gather, h, withoutRepeats, dropRepeats]

theorem events_dropRepeats_binary (loc : Option Location) (c : Connective) (l r : Expr) :
    (dropRepeats (binary loc c l r)).events =
      (gather c l).events ++ (gather c r).events ++
        (close (binary loc c l r) c ((gather c l).value ++ (gather c r).value)).events := by
  simp [dropRepeats]

theorem events_gather_binary (c : Connective) (loc : Option Location) (d : Connective)
    (l r : Expr) :
    (gather c (binary loc d l r)).events =
      if d = c then (gather c l).events ++ (gather c r).events
      else (dropRepeats (binary loc d l r)).events := by
  by_cases h : d = c
  · subst h
    simp [gather]
  · simp [gather, h, dropRepeats]

theorem gather_ne_nil (c : Connective) (e : Expr) : (gather c e).value ≠ [] := by
  obtain ⟨x, rest, list⟩ := List.exists_cons_of_ne_nil (operands_ne_nil c e)
  rw [value_gather, list, List.flatMap_cons]
  exact List.append_ne_nil_of_left_ne_nil (operands_ne_nil c _) _

/-- In a chain of its own connective a node contributes what its sides do. -/
theorem gather_binary_self (loc : Option Location) (c : Connective) (l r : Expr) :
    gather c (binary loc c l r) =
      ⟨(gather c l).value ++ (gather c r).value, (gather c l).events ++ (gather c r).events⟩ := by
  simp only [gather, if_pos]
  exact congrArg (fun rest => Logged.mk _ (_ ++ rest)) (List.append_nil _)

/-- A connective node is treated by closing the chain that it is the root of. -/
theorem dropRepeats_binary (loc : Option Location) (c : Connective) (l r : Expr) :
    dropRepeats (binary loc c l r) =
      gather c (binary loc c l r) >>= close (binary loc c l r) c := by
  simp [gather, dropRepeats]

/-- In a chain of another connective the treated node is taken apart. -/
theorem gather_binary_of_ne {c d : Connective} (other : d ≠ c) (loc : Option Location)
    (l r : Expr) : gather c (binary loc d l r) = operands c <$> dropRepeats (binary loc d l r) := by
  simp [gather, dropRepeats, other]

theorem gather_not (c : Connective) (loc : Option Location) (x : Expr) :
    gather c (not loc x) = operands c <$> dropRepeats (not loc x) := by
  simp [gather, dropRepeats, operands]

/-- Induction along the pass: `P` is to hold of an expression and what it is turned into, and `G c` of
an expression and what it contributes to a chain of `c` around it. -/
theorem dropRepeats_induction {P : Expr → Logged Expr → Prop}
    {G : Connective → Expr → Logged (List Expr) → Prop}
    (literal : ∀ loc v, P (.literal loc v) (pure (.literal loc v)))
    (column : ∀ loc n, P (.column loc n) (pure (.column loc n)))
    (not : ∀ loc x treated, P x treated → P (.not loc x) (Expr.not loc <$> treated))
    (joined : ∀ loc c l r ls rs, G c l ls → G c r rs →
      G c (.binary loc c l r) ⟨ls.value ++ rs.value, ls.events ++ rs.events⟩)
    (closed : ∀ loc c l r es, es.value ≠ [] → G c (.binary loc c l r) es →
      P (.binary loc c l r) (es >>= close (.binary loc c l r) c))
    (apart : ∀ c e treated, P e treated → G c e (operands c <$> treated)) (e : Expr) :
    P e (dropRepeats e) ∧ ∀ c, G c e (gather c e) := by
  induction e with
  | literal loc v => exact ⟨literal loc v, fun c => apart c _ _ (literal loc v)⟩
  | column loc n => exact ⟨column loc n, fun c => apart c _ _ (column loc n)⟩
  | not loc x ih =>
    have value : P (.not loc x) (dropRepeats (.not loc x)) := by
      rw [dropRepeats, bind_pure_comp]
      exact not loc x _ ih.1
    refine ⟨value, fun c => ?_⟩
    rw [gather_not]
    exact apart c _ _ value
  | binary loc d l r ihl ihr =>
    have sides : G d (.binary loc d l r) (gather d (.binary loc d l r)) := by
      rw [gather_binary_self]
      exact joined loc d l r _ _ (ihl.2 d) (ihr.2 d)
    have value : P (.binary loc d l r) (dropRepeats (.binary loc d l r)) := by
      rw [dropRepeats_binary]
      exact closed loc d l r _ (gather_ne_nil d _) sides
    refine ⟨value, fun c => ?_⟩
    by_cases same : d = c
    · exact same ▸ sides
    · rw [gather_binary_of_ne same]
      exact apart c _ _ value

@[simp] theorem withoutRepeats_literal (loc : Option Location) (v : Literal) :
    (literal loc v).withoutRepeats = literal loc v := rfl

@[simp] theorem withoutRepeats_column (loc : Option Location) (n : ColumnName) :
    (column loc n).withoutRepeats = column loc n := rfl

@[simp] theorem withoutRepeats_not (loc : Option Location) (x : Expr) :
    (not loc x).withoutRepeats = not loc x.withoutRepeats := rfl

end QueryLogic.Expr
