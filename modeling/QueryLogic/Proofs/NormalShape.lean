import QueryLogic.Expr.Repeats
import QueryLogic.Proofs.FirstOccurrences
/-!
Shapes without repeated operands. Dropping repeats looks at shapes only, and on shapes it is a plain
recursion: the two sides of a connective are reduced, their operands are listed one after the other,
and the first occurrences are joined from the left. A shape is normal when no connective has itself
on the right and no chain has an operand twice. On normal shapes the operands of a chain and the
chain determine each other, so equations between chains are equations between lists.

What is proved:
  1. `Normal.operands_merge`: the operands of two merged normal shapes are the first occurrences
     among the operands of both.
  2. `normal_reduced` and `reduced_eq_self_iff`: reducing yields a normal shape, and changes every
     other one.
  3. `merge_assoc`, `merge_self`, `merge_again`: on normal shapes merging is associative, and an
     operand counts once.
  4. `Expr.shape_withoutRepeats`: an expression without its repeated operands has the reduced shape,
     whatever the hash of expressions.
-/
namespace QueryLogic

/-! ## Chains of shapes -/

namespace Shape

def operands (c : Connective) : Shape → List Shape
  | literal v => [literal v]
  | column n => [column n]
  | not x => [not x]
  | binary d l r => if d = c then l.operands c ++ r.operands c else [binary d l r]

def chain (c : Connective) (first : Shape) (others : List Shape) : Shape :=
  others.foldl (binary c) first

def chain? (c : Connective) : List Shape → Option Shape
  | [] => none
  | first :: others => some (chain c first others)

/-- The chain of the operands of two shapes, each kept at its first place. -/
def merge (c : Connective) (s t : Shape) : Shape :=
  (chain? c (s.operands c ++ t.operands c).eraseDups).getD s

/-- The shape without repeated operands. -/
def reduced : Shape → Shape
  | literal v => literal v
  | column n => column n
  | not x => not x.reduced
  | binary c l r => merge c l.reduced r.reduced

/-- No connective has itself on the right, and no chain has an operand twice. -/
def Normal : Shape → Prop
  | literal _ => True
  | column _ => True
  | not x => x.Normal
  | binary c l r =>
    l.Normal ∧ r.Normal ∧ r.operands c = [r] ∧ (l.operands c ++ r.operands c).Nodup

variable {c : Connective} {s t u : Shape}

@[simp] theorem operands_binary (c : Connective) (s t : Shape) :
    (binary c s t).operands c = s.operands c ++ t.operands c := if_pos rfl

theorem operands_ne_nil (c : Connective) (s : Shape) : s.operands c ≠ [] := by
  induction s with
  | literal v => exact List.cons_ne_nil _ _
  | column n => exact List.cons_ne_nil _ _
  | not x _ => exact List.cons_ne_nil _ _
  | binary d l r ihl _ =>
    by_cases h : d = c
    · subst h
      rw [operands_binary]
      exact List.append_ne_nil_of_left_ne_nil ihl _
    · rw [operands, if_neg h]
      exact List.cons_ne_nil _ _

theorem chain?_concat {ss : List Shape} (h : chain? c ss = some s) (t : Shape) :
    chain? c (ss ++ [t]) = some (binary c s t) := by
  cases ss with
  | nil => cases h
  | cons first others =>
    rw [chain?, Option.some.injEq] at h
    show some ((others ++ [t]).foldl (binary c) first) = some (binary c s t)
    rw [List.foldl_append, ← h]
    rfl

namespace Normal

theorem nodup_operands (h : s.Normal) (c : Connective) : (s.operands c).Nodup := by
  cases s with
  | binary d l r =>
    by_cases same : d = c
    · subst same
      rw [operands_binary]
      exact h.2.2.2
    · rw [operands, if_neg same]
      exact List.pairwise_singleton _ _
  | _ => exact List.pairwise_singleton _ _

/-- The operands of a normal shape are normal, and none is a chain of the same connective. -/
theorem of_mem_operands (h : s.Normal) (ht : t ∈ s.operands c) :
    t.Normal ∧ t.operands c = [t] := by
  induction s with
  | literal v =>
    obtain rfl := List.mem_singleton.1 ht
    exact ⟨h, rfl⟩
  | column n =>
    obtain rfl := List.mem_singleton.1 ht
    exact ⟨h, rfl⟩
  | not x _ =>
    obtain rfl := List.mem_singleton.1 ht
    exact ⟨h, rfl⟩
  | binary d l r ihl ihr =>
    by_cases same : d = c
    · subst same
      rw [operands_binary] at ht
      rcases List.mem_append.1 ht with ht | ht
      · exact ihl h.1 ht
      · exact ihr h.2.1 ht
    · rw [operands, if_neg same] at ht
      obtain rfl := List.mem_singleton.1 ht
      exact ⟨h, if_neg same⟩

theorem chain?_operands (h : s.Normal) (c : Connective) : chain? c (s.operands c) = some s := by
  induction s with
  | literal v => rfl
  | column n => rfl
  | not x _ => rfl
  | binary d l r ihl _ =>
    by_cases same : d = c
    · subst same
      rw [operands_binary, h.2.2.1]
      exact chain?_concat (ihl h.1) r
    · rw [operands, if_neg same]
      rfl

theorem eq_of_operands_eq (hs : s.Normal) (ht : t.Normal) (c : Connective)
    (h : s.operands c = t.operands c) : s = t := by
  apply Option.some.inj
  rw [← hs.chain?_operands c, ← ht.chain?_operands c, h]

/-- Joining single operands to a normal shape, all different, yields a normal shape. -/
theorem chain {first : Shape} {others : List Shape} (h : first.Normal)
    (single : ∀ t ∈ others, t.Normal ∧ t.operands c = [t])
    (fresh : (first.operands c ++ others).Nodup) :
    (Shape.chain c first others).Normal ∧
      (Shape.chain c first others).operands c = first.operands c ++ others := by
  induction others generalizing first with
  | nil => exact ⟨h, (List.append_nil _).symm⟩
  | cons t others ih =>
    obtain ⟨normal, alone⟩ := single t List.mem_cons_self
    have joined : (binary c first t).operands c = first.operands c ++ [t] := by
      rw [operands_binary, alone]
    -- the first operand joins what comes before, and the others are joined to the longer chain
    rw [List.append_cons, ← joined] at fresh ⊢
    have side : (first.operands c ++ t.operands c).Nodup := by
      rw [← operands_binary]
      exact (List.nodup_append.1 fresh).1
    have longer : (binary c first t).Normal := ⟨h, normal, alone, side⟩
    apply ih longer _ fresh
    intro u hu
    exact single u (List.mem_cons_of_mem t hu)

/-- A list of different single operands is the operands of its chain. -/
theorem of_chain? {ss : List Shape} (h : chain? c ss = some s)
    (single : ∀ t ∈ ss, t.Normal ∧ t.operands c = [t]) (fresh : ss.Nodup) :
    s.Normal ∧ s.operands c = ss := by
  cases ss with
  | nil => cases h
  | cons first others =>
    rw [chain?, Option.some.injEq] at h
    obtain ⟨normal, alone⟩ := single first List.mem_cons_self
    have whole : first.operands c ++ others = first :: others := by rw [alone, List.singleton_append]
    rw [← h, ← whole]
    exact normal.chain (fun t ht => single t (List.mem_cons_of_mem first ht)) (whole ▸ fresh)

theorem merge_spec (hs : s.Normal) (ht : t.Normal) (c : Connective) :
    (merge c s t).Normal ∧
      (merge c s t).operands c = (s.operands c ++ t.operands c).eraseDups := by
  have single : ∀ u ∈ (s.operands c ++ t.operands c).eraseDups,
      u.Normal ∧ u.operands c = [u] := by
    intro u hu
    rcases List.mem_append.1 (List.mem_eraseDups.1 hu) with hu | hu
    · exact hs.of_mem_operands hu
    · exact ht.of_mem_operands hu
  cases h : chain? c (s.operands c ++ t.operands c).eraseDups with
  | none =>
    -- there is always a first operand
    obtain ⟨first, others, list⟩ := List.exists_cons_of_ne_nil (operands_ne_nil c s)
    rw [list, List.cons_append, List.eraseDups_cons] at h
    cases h
  | some u =>
    rw [merge, h]
    exact of_chain? h single (nodup_eraseDups _)

theorem merge (hs : s.Normal) (ht : t.Normal) (c : Connective) : (Shape.merge c s t).Normal :=
  (hs.merge_spec ht c).1

theorem operands_merge (hs : s.Normal) (ht : t.Normal) (c : Connective) :
    (Shape.merge c s t).operands c = (s.operands c ++ t.operands c).eraseDups :=
  (hs.merge_spec ht c).2

/-! ## The laws of merging -/

theorem merge_assoc (hs : s.Normal) (ht : t.Normal) (hu : u.Normal) (c : Connective) :
    Shape.merge c (Shape.merge c s t) u = Shape.merge c s (Shape.merge c t u) := by
  refine eq_of_operands_eq ((hs.merge ht c).merge hu c) (hs.merge (ht.merge hu c) c) c ?_
  rw [(hs.merge ht c).operands_merge hu, hs.operands_merge (ht.merge hu c), hs.operands_merge ht,
    ht.operands_merge hu, eraseDups_eraseDups_append, eraseDups_append_eraseDups,
    List.append_assoc]

theorem merge_self (hs : s.Normal) (c : Connective) : Shape.merge c s s = s := by
  refine eq_of_operands_eq (hs.merge hs c) hs c ?_
  rw [hs.operands_merge hs, eraseDups_append_of_subset (List.Subset.refl _),
    eraseDups_of_nodup (hs.nodup_operands c)]

theorem merge_again (hs : s.Normal) (ht : t.Normal) (c : Connective) :
    Shape.merge c (Shape.merge c s t) s = Shape.merge c s t := by
  refine eq_of_operands_eq ((hs.merge ht c).merge hs c) (hs.merge ht c) c ?_
  have left : s.operands c ⊆ s.operands c ++ t.operands c := List.subset_append_left _ _
  rw [(hs.merge ht c).operands_merge hs, hs.operands_merge ht, eraseDups_eraseDups_append,
    eraseDups_append_of_subset left]

end Normal

theorem normal_reduced (s : Shape) : s.reduced.Normal := by
  induction s with
  | literal v => trivial
  | column n => trivial
  | not x ih => exact ih
  | binary c l r ihl ihr => exact ihl.merge ihr c

theorem Normal.reduced_eq (h : s.Normal) : s.reduced = s := by
  induction s with
  | literal v => rfl
  | column n => rfl
  | not x ih => exact congrArg not (ih h)
  | binary c l r ihl ihr =>
    have ⟨hl, hr, _, fresh⟩ := h
    rw [reduced, ihl hl, ihr hr]
    apply (hl.merge hr c).eq_of_operands_eq h c
    rw [hl.operands_merge hr, operands_binary, eraseDups_of_nodup fresh]

/-- Reducing changes all but the normal shapes. -/
theorem reduced_eq_self_iff : s.reduced = s ↔ s.Normal := by
  constructor
  · intro h
    rw [← h]
    exact normal_reduced s
  · exact Normal.reduced_eq

end Shape

/-! ## The shape of an expression without repeats -/

namespace Expr

theorem shape_chain (c : Connective) (first : Expr) (others : List Expr) :
    (chain c first others).shape = Shape.chain c first.shape (others.map shape) := by
  induction others generalizing first with
  | nil => rfl
  | cons e es ih => exact ih (binary none c first e)

theorem map_shape_operands (c : Connective) (e : Expr) :
    (e.operands c).map shape = e.shape.operands c := by
  induction e with
  | literal loc v => rfl
  | column loc n => rfl
  | not loc x _ => rfl
  | binary loc d l r ihl ihr =>
    by_cases h : d = c
    · simp [operands, shape, h, ihl, ihr]
    · simp [operands, shape, Shape.operands, h]

theorem beq_eq_beq_shape (a b : Expr) : (a == b) = (a.shape == b.shape) := by
  rw [Bool.eq_iff_iff, beq_iff_shape, beq_iff_eq]

theorem map_shape_eraseDups (es : List Expr) :
    es.eraseDups.map shape = (es.map shape).eraseDups :=
  (eraseDups_map shape fun a _ b _ => (beq_eq_beq_shape b a).symm).symm

theorem shape_rebuild_of_chain? (node : Expr) {c : Connective} {kept : List Expr} {s : Shape}
    (h : Shape.chain? c (kept.map shape) = some s) : (rebuild node c kept).shape = s := by
  cases kept with
  | nil => cases h
  | cons first others =>
    rw [List.map_cons, Shape.chain?, Option.some.injEq] at h
    have joined : chain? c (first :: others) = some (chain c first others) := rfl
    rw [shape_rebuild node joined, shape_chain, h]

variable [Hashable Expr] [LawfulHashable Expr]

/-- A treated expression has the reduced shape, and what it contributes to a chain around it are,
repetitions aside, the operands of the reduced shape. -/
theorem shape_withoutRepeats_and_gather (e : Expr) :
    e.withoutRepeats.shape = e.shape.reduced ∧
      ∀ c, ((gather c e).value.map shape).eraseDups = e.shape.reduced.operands c := by
  apply dropRepeats_induction (P := fun e treated => treated.value.shape = e.shape.reduced)
    (G := fun c e es => (es.value.map shape).eraseDups = e.shape.reduced.operands c)
  case literal => exact fun _ _ => rfl
  case column => exact fun _ _ => rfl
  case not => exact fun loc x treated value => congrArg Shape.not value
  case joined =>
    intro loc c l r ls rs left right
    rw [List.map_append, ← eraseDups_eraseDups_append, ← eraseDups_append_eraseDups, left, right]
    exact ((Shape.normal_reduced l.shape).operands_merge (Shape.normal_reduced r.shape) c).symm
  case closed =>
    intro loc c l r es _ sides
    apply shape_rebuild_of_chain?
    rw [distinct_eq_eraseDups, map_shape_eraseDups, sides]
    exact (Shape.normal_reduced _).chain?_operands c
  case apart =>
    intro c e treated value
    -- in a chain of the other connective it is the treated node that is taken apart
    rw [Logged.value_map, map_shape_operands, value,
      eraseDups_of_nodup ((Shape.normal_reduced _).nodup_operands c)]

theorem shape_withoutRepeats (e : Expr) : e.withoutRepeats.shape = e.shape.reduced :=
  (shape_withoutRepeats_and_gather e).1

end Expr

end QueryLogic
