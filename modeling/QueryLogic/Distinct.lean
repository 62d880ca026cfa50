import Std.Data.HashSet.Lemmas
/-!
First occurrences. A list is gone through from left to right with the set of what was seen so far,
and an element is kept when it was not seen before. The set is a hash set, but which elements are
kept depends on their equality alone: `distinct_eq_eraseDups` says that the result is the plain list
of first occurrences, for every hash under which equal elements have equal hashes.
-/
namespace QueryLogic

variable {α : Type} [BEq α] [Hashable α]

/-- For each element, whether it is neither in `seen` nor equal to an earlier element. -/
def newAfter (seen : Std.HashSet α) : List α → List Bool
  | [] => []
  | a :: as => (!seen.contains a) :: newAfter (seen.insert a) as

def isNew (as : List α) : List Bool := newAfter ∅ as

/-- The elements that equal no earlier one, in order. -/
def distinct (as : List α) : List α :=
  (as.zip (isNew as)).filterMap fun p => if p.2 then some p.1 else none

/-- The places of the elements that equal no earlier one. -/
def distinctIdxs (as : List α) : List Nat :=
  (isNew as).zipIdx.filterMap fun p => if p.1 then some p.2 else none

theorem filterMap_newAfter [EquivBEq α] [LawfulHashable α] (seen : Std.HashSet α) (as : List α) :
    ((as.zip (newAfter seen as)).filterMap fun p => if p.2 then some p.1 else none) =
      (as.filter fun a => !seen.contains a).eraseDups := by
  induction as generalizing seen with
  | nil => simp [newAfter]
  | cons a as ih =>
    have step : (as.filter fun b => !(seen.insert a).contains b) =
        ((as.filter fun b => !seen.contains b).filter fun b => !b == a) := by
      rw [List.filter_filter]
      refine List.filter_congr fun b _ => ?_
      rw [Std.HashSet.contains_insert, Bool.not_or, BEq.comm]
    by_cases h : seen.contains a = true
    · have same : (as.filter fun b => !(seen.insert a).contains b) =
          as.filter fun b => !seen.contains b := by
        refine List.filter_congr fun b _ => ?_
        rw [Std.HashSet.contains_insert]
        by_cases hb : (a == b) = true
        · simp [← Std.HashSet.contains_congr hb, h]
        · simp [hb]
      simp only [newAfter, h, Bool.not_true, List.zip_cons_cons, List.filterMap_cons,
        Bool.false_eq_true, ↓reduceIte, ih, same]
      rw [List.filter_cons_of_neg (by simp [h])]
    · simp only [newAfter, h, Bool.not_false, List.zip_cons_cons, List.filterMap_cons,
        ↓reduceIte, ih, step]
      rw [List.filter_cons_of_pos (by simp [h]), List.eraseDups_cons]

/-- The hash decides nothing: what is kept are the first occurrences. -/
theorem distinct_eq_eraseDups [EquivBEq α] [LawfulHashable α] (as : List α) :
    distinct as = as.eraseDups := by
  rw [distinct, isNew, filterMap_newAfter, List.filter_eq_self.2]
  simp

omit [Hashable α] in
/-- Induction as `List.eraseDups` recurs: behind its first element, a list is left without what
equals that element. -/
@[elab_as_elim]
theorem eraseDups_induction {P : List α → Prop} (nil : P [])
    (cons : ∀ a as, P (as.filter fun b => !b == a) → P (a :: as)) : ∀ as, P as
  | [] => nil
  | a :: as => by
    have shorter := List.length_filter_le (fun b => !b == a) as
    exact cons a as (eraseDups_induction nil cons _)
termination_by as => as.length
decreasing_by
  rw [List.length_cons]
  omega

omit [Hashable α] in
theorem eraseDups_sublist (as : List α) : as.eraseDups.Sublist as := by
  induction as using eraseDups_induction with
  | nil => exact List.Sublist.refl []
  | cons a as ih =>
    rw [List.eraseDups_cons]
    exact (ih.trans List.filter_sublist).cons_cons a

theorem distinct_sublist [EquivBEq α] [LawfulHashable α] (as : List α) :
    (distinct as).Sublist as := by
  rw [distinct_eq_eraseDups]
  exact eraseDups_sublist as

/-- The first element of a list is always kept, whatever the hash. -/
theorem distinct_ne_nil {as : List α} (h : as ≠ []) : distinct as ≠ [] := by
  obtain ⟨a, rest, rfl⟩ := List.exists_cons_of_ne_nil h
  rw [distinct, isNew, newAfter, Std.HashSet.contains_empty]
  exact List.cons_ne_nil a _

end QueryLogic
