import Mathlib.Data.List.Basic
import Mathlib.Data.List.Flatten
import QueryLogic.Proofs.Locations
import QueryLogic.Walk
/-!
What dropping repeats leaves of the columns and literals of a condition. A dropped operand equals one
that stands further to the left, so each of its leaves has an equal one there; and as the first of
equal operands is kept, the first of equal leaves is kept too, with its own location and spelling.
Hence the leaves that remain are a part of the given ones in their order, no value of a leaf is lost,
and the first leaf of each value is the very same node as before. The columns are among the leaves.

What is proved:
  1. `Thins.append` and `Thins.flatMap_eraseDups`: lists that lose repeated elements only may be put
     together, and the parts of the first occurrences are all parts but repeated ones.
  2. `Expr.columns_eq`: the columns that a walk comes by are the names among the leaves.
  3. `Expr.thins_leaves_withoutRepeats_and_gather`: an expression without its repeats has lost
     repeated leaves only, and so has what it contributes to a chain around it.
  4. `Expr.thins_leaves_and_columns_withoutRepeats`: the same of the columns, of which none is lost.
-/
namespace QueryLogic

/-! ## Lists without some of their repetitions -/

section Lists

variable {α β : Type}

/-- Elements may be left out before they are taken apart when no part of theirs is selected. -/
theorem filter_flatMap_filter {f : α → List β} {p : α → Bool} {q : β → Bool}
    (h : ∀ a, p a = false → (f a).filter q = []) (as : List α) :
    ((as.filter p).flatMap f).filter q = (as.flatMap f).filter q := by
  induction as with
  | nil => rfl
  | cons a as ih =>
    rw [List.flatMap_cons, List.filter_append]
    cases selected : p a with
    | true =>
      rw [List.filter_cons_of_pos selected, List.flatMap_cons, List.filter_append, ih]
    | false =>
      rw [List.filter_cons_of_neg (by simp [selected]), h a selected, List.nil_append, ih]

variable [BEq α] [BEq β]

/-- A function to optional values that is defined alike on equal elements, and on them alone has
equal values. -/
theorem eraseDups_filterMap [EquivBEq α] {f : α → Option β}
    (h : ∀ {a x}, f a = some x → ∀ b, (b == a) = (f b).any (· == x)) (as : List α) :
    (as.filterMap f).eraseDups = as.eraseDups.filterMap f := by
  induction as using eraseDups_induction with
  | nil => rfl
  | cons a as ih =>
    rw [List.eraseDups_cons]
    cases value : f a with
    | none =>
      -- what equals `a` has no value either
      have same : (as.filter fun b => !b == a).filterMap f = as.filterMap f := by
        rw [List.filterMap_filter]
        apply List.filterMap_congr
        intro b _
        cases other : f b with
        | none => rw [ite_self]
        | some y =>
          have different : (a == b) = false := by rw [h other, value]; rfl
          rw [BEq.comm, different]
          rfl
      rw [List.filterMap_cons_none value, List.filterMap_cons_none value, ← ih, same]
    | some x =>
      have same : ((as.filterMap f).filter fun y => !y == x) =
          (as.filter fun b => !b == a).filterMap f := by
        rw [List.filter_filterMap, List.filterMap_filter]
        apply List.filterMap_congr
        intro b _
        rw [h value]
        cases f b with
        | none => rw [ite_self]; rfl
        | some y => cases equal : y == x <;> simp [equal]
      rw [List.filterMap_cons_some value, List.filterMap_cons_some value, List.eraseDups_cons, same,
        ih]

/-- A part of a list in its order with the same first occurrences: what is missing are repetitions. -/
structure Thins (kept all : List α) : Prop where
  sublist : kept.Sublist all
  eraseDups_eq : kept.eraseDups = all.eraseDups

namespace Thins

theorem refl (as : List α) : Thins as as := ⟨List.Sublist.refl as, rfl⟩

theorem trans {as bs cs : List α} (h : Thins as bs) (h' : Thins bs cs) : Thins as cs :=
  ⟨h.sublist.trans h'.sublist, h.eraseDups_eq.trans h'.eraseDups_eq⟩

theorem append [EquivBEq α] {as as' bs bs' : List α} (h : Thins as bs) (h' : Thins as' bs') :
    Thins (as ++ as') (bs ++ bs') :=
  ⟨h.sublist.append h'.sublist, eraseDups_append_congr h.eraseDups_eq h'.eraseDups_eq⟩

theorem filterMap [EquivBEq α] {f : α → Option β}
    (hf : ∀ {a x}, f a = some x → ∀ b, (b == a) = (f b).any (· == x)) {as bs : List α}
    (h : Thins as bs) : Thins (as.filterMap f) (bs.filterMap f) := by
  refine ⟨h.sublist.filterMap f, ?_⟩
  rw [eraseDups_filterMap hf, eraseDups_filterMap hf, h.eraseDups_eq]

/-- Where equal elements are made of equal parts, the parts of the first occurrences are all parts
but repeated ones. -/
theorem flatMap_eraseDups [EquivBEq β] {f : α → List β}
    (h : ∀ {a b}, (b == a) = true → ∀ x ∈ f b, (f a).contains x = true) (as : List α) :
    Thins (as.eraseDups.flatMap f) (as.flatMap f) := by
  refine ⟨(eraseDups_sublist as).flatMap f, ?_⟩
  induction as using eraseDups_induction with
  | nil => rfl
  | cons a as ih =>
    -- the parts of what equals `a` all stand in front already
    have repeated : ∀ b, (!b == a) = false → (f b).filter (fun x => !(f a).contains x) = [] := by
      intro b equal
      apply List.filter_eq_nil_iff.2
      intro x hx
      rw [h (by simpa using equal) x hx]
      decide
    rw [List.eraseDups_cons, List.flatMap_cons, List.flatMap_cons, eraseDups_append_congr rfl ih,
      eraseDups_append_filter, filter_flatMap_filter repeated, ← eraseDups_append_filter]

end Thins

end Lists

namespace Expr

/-! ## Leaves -/

variable {a b : Expr}

theorem flatMap_leaves_operands (c : Connective) (e : Expr) :
    (e.operands c).flatMap leaves = e.leaves :=
  flatMap_operands_of_append (fun _ _ _ => rfl) e

theorem leaves_chain (c : Connective) (first : Expr) (others : List Expr) :
    (chain c first others).leaves = (first :: others).flatMap leaves :=
  chain_of_append (fun _ _ _ => rfl) first others

theorem leaves_inherit (loc : Option Location) (e : Expr) : (e.inherit loc).leaves = e.leaves := by
  cases e <;> rfl

/-- The leaves of equal expressions have the same shapes. -/
theorem Alike.map_shape_leaves (h : Alike a b) : a.leaves.map shape = b.leaves.map shape := by
  induction h with
  | literal _ _ h => rw [leaves, leaves, List.map_singleton, List.map_singleton, shape, shape, h]
  | column _ _ n => rfl
  | not _ _ _ ih => exact ih
  | binary _ _ c _ _ left right =>
    rw [leaves, leaves, List.map_append, List.map_append, left, right]

theorem contains_leaves_of_beq (h : (b == a) = true) {x : Expr} (hx : x ∈ b.leaves) :
    a.leaves.contains x = true := by
  have shapes := (alike_of_shape_eq (beq_iff_shape.1 h)).map_shape_leaves
  have among : x.shape ∈ a.leaves.map shape := shapes ▸ List.mem_map_of_mem hx
  obtain ⟨y, hy, same⟩ := List.mem_map.1 among
  exact List.contains_iff_exists_mem_beq.2 ⟨y, hy, beq_iff_shape.2 same.symm⟩

/-! ## Columns -/

def columnName? : Expr → Option ColumnName
  | column _ n => some n
  | _ => none

theorem walk_columnCollector (e : Expr) :
    Appends (columnCollector.walk e) (e.leaves.filterMap columnName?) := by
  induction e with
  | literal loc v => exact .nothing
  | column loc n => exact .push n
  | not loc x ih => exact ih
  | binary loc c l r ihl ihr =>
    rw [leaves, List.filterMap_append]
    exact ihl.comp ihr

/-- The columns are the names of the leaves that are columns. -/
theorem columns_eq (e : Expr) : e.columns = e.leaves.filterMap columnName? :=
  (walk_columnCollector e).toList

/-- What equals a column is a column of the same name. -/
theorem beq_eq_any_columnName? {n : ColumnName} (h : a.columnName? = some n) (b : Expr) :
    (b == a) = b.columnName?.any (· == n) := by
  cases a with
  | column loc m =>
    obtain rfl := Option.some.inj h
    cases b <;> rfl
  | _ => cases h

/-! ## Without repeats -/

variable [Hashable Expr] [LawfulHashable Expr]

omit [LawfulHashable Expr] in
/-- The leaves of a closed chain are those of the operands that are kept. -/
theorem leaves_close (node : Expr) (c : Connective) {es : List Expr} (nonempty : es ≠ []) :
    (close node c es).value.leaves = (distinct es).flatMap leaves := by
  obtain ⟨first, others, list, closed⟩ := exists_value_close_eq_inherit node c nonempty
  rw [closed, list, leaves_inherit, leaves_chain]

/-- The leaves of a treated expression, and of what it contributes to a chain around it, are those of
the expression but for repeated ones. -/
theorem thins_leaves_withoutRepeats_and_gather (e : Expr) :
    Thins e.withoutRepeats.leaves e.leaves ∧
      ∀ c, Thins ((gather c e).value.flatMap leaves) e.leaves := by
  apply dropRepeats_induction (P := fun e treated => Thins treated.value.leaves e.leaves)
    (G := fun _ e es => Thins (es.value.flatMap leaves) e.leaves)
  case literal => exact fun _ _ => .refl _
  case column => exact fun _ _ => .refl _
  case not => exact fun _ _ _ value => value
  case joined =>
    intro loc c l r ls rs left right
    rw [List.flatMap_append]
    exact left.append right
  case closed =>
    intro loc c l r es nonempty sides
    rw [Logged.value_bind, leaves_close _ c nonempty, distinct_eq_eraseDups]
    exact (Thins.flatMap_eraseDups contains_leaves_of_beq _).trans sides
  case apart =>
    intro c e treated value
    rw [Logged.value_map, flatMap_leaves_operands]
    exact value

theorem thins_leaves_and_columns_withoutRepeats (e : Expr) :
    Thins e.withoutRepeats.leaves e.leaves ∧ Thins e.withoutRepeats.columns e.columns ∧
      ∀ n, n ∈ e.withoutRepeats.columns ↔ n ∈ e.columns := by
  have leaves := (thins_leaves_withoutRepeats_and_gather e).1
  have columns : Thins e.withoutRepeats.columns e.columns := by
    rw [columns_eq, columns_eq]
    exact leaves.filterMap beq_eq_any_columnName?
  refine ⟨leaves, columns, fun n => ?_⟩
  rw [← List.mem_eraseDups, columns.eraseDups_eq, List.mem_eraseDups]

end Expr

/-- Of two equal conjunctions the first remains and joins the chain around it, where one of its
operands is dropped. The number is left with its first spelling. -/
theorem thins_leaves_and_columns_withoutRepeats_joined :
    let a (loc : Option Location) := Expr.column loc ⟨some "t", "a"⟩
    let short := Expr.literal (some ⟨1, 20⟩) (.decimal ⟨15, 1⟩)
    let long := Expr.literal (some ⟨1, 40⟩) (.decimal ⟨150, 2⟩)
    let both (x : Expr) := Expr.binary none .and x (a (some ⟨1, 5⟩))
    let e := Expr.binary none .and (a none) (.binary none .or (both short) (both long))
    e.withoutRepeats.leaves.Sublist [a none, short, a (some ⟨1, 5⟩), long, a (some ⟨1, 5⟩)] ∧
      e.withoutRepeats.leaves.eraseDups = [a none, short] ∧
      e.withoutRepeats.columns.eraseDups = [⟨some "t", "a"⟩] := by
  intro a short long both e
  obtain ⟨leaves, columns, -⟩ := Expr.thins_leaves_and_columns_withoutRepeats e
  exact ⟨leaves.sublist, leaves.eraseDups_eq.trans (by decide),
    columns.eraseDups_eq.trans (by decide)⟩

end QueryLogic
