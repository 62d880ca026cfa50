import QueryLogic.Distinct
/-!
First occurrences under an equality that is an equivalence. Equal elements need not be the same, so
it matters which of them a list of first occurrences holds: it is the one that stands furthest to the
left. How the list was put together does not matter otherwise; in particular parts of it may be
replaced by their own first occurrences beforehand.

What is proved:
  1. `eraseDups_append_filter`: behind a list, what equals one of its elements is left out.
  2. `eraseDups_append_congr`: the first occurrences of two parts determine those of the whole.
  3. `firstPlaces_distinctIdxs`: a hash set accepts the places at which an element stands for the
     first time, as comparing pairs of elements finds them.
-/
namespace QueryLogic

variable {α β : Type} [BEq α] [BEq β]

theorem eraseDups_of_pairwise {as : List α} (h : as.Pairwise fun a b => (b == a) = false) :
    as.eraseDups = as := by
  induction as with
  | nil => rfl
  | cons a as ih =>
    obtain ⟨fresh, rest⟩ := List.pairwise_cons.1 h
    have all : (as.filter fun b => !b == a) = as := by
      apply List.filter_eq_self.2
      intro b hb
      rw [fresh b hb, Bool.not_false]
    rw [List.eraseDups_cons, all, ih rest]

/-- A function that neither joins nor separates elements of a list keeps its first occurrences. -/
theorem eraseDups_map (f : α → β) {as : List α}
    (h : ∀ a ∈ as, ∀ b ∈ as, (f b == f a) = (b == a)) :
    (as.map f).eraseDups = as.eraseDups.map f := by
  induction as using eraseDups_induction with
  | nil => rfl
  | cons a as ih =>
    have among : ∀ b ∈ as.filter fun b => !b == a, b ∈ a :: as :=
      fun b hb => List.mem_cons_of_mem a (List.mem_filter.1 hb).1
    have same : (as.filter fun b => !f b == f a) = as.filter fun b => !b == a := by
      apply List.filter_congr
      intro b hb
      rw [h a List.mem_cons_self b (List.mem_cons_of_mem a hb)]
    rw [List.map_cons, List.eraseDups_cons, List.eraseDups_cons, List.map_cons, List.filter_map,
      Function.comp_def, same, ih fun b hb d hd => h b (among b hb) d (among d hd)]

/-! ## Parts of a list -/

theorem pairwise_eraseDups (as : List α) :
    as.eraseDups.Pairwise fun a b => (b == a) = false := by
  induction as using eraseDups_induction with
  | nil => exact List.Pairwise.nil
  | cons a as ih =>
    rw [List.eraseDups_cons, List.pairwise_cons]
    refine ⟨fun b hb => ?_, ih⟩
    obtain ⟨-, different⟩ := List.mem_filter.1 ((eraseDups_sublist _).subset hb)
    rwa [Bool.not_eq_true'] at different

theorem eraseDups_eraseDups (as : List α) : as.eraseDups.eraseDups = as.eraseDups :=
  eraseDups_of_pairwise (pairwise_eraseDups as)

theorem nodup_eraseDups [LawfulBEq α] (as : List α) : as.eraseDups.Nodup := by
  apply (pairwise_eraseDups as).imp
  intro a b different
  exact (ne_of_beq_false different).symm

theorem eraseDups_of_nodup [LawfulBEq α] {as : List α} (h : as.Nodup) : as.eraseDups = as := by
  apply eraseDups_of_pairwise
  apply h.imp
  intro a b different
  exact beq_false_of_ne different.symm

/-- Selecting elements by a property that equal elements share, before or afterwards. -/
theorem eraseDups_filter {p : α → Bool} (h : ∀ {a b}, (a == b) = true → p a = p b) (as : List α) :
    (as.filter p).eraseDups = as.eraseDups.filter p := by
  induction as using eraseDups_induction with
  | nil => rfl
  | cons a as ih =>
    rw [List.filter_filter] at ih
    cases selected : p a with
    | true =>
      rw [List.filter_cons_of_pos selected, List.eraseDups_cons, List.eraseDups_cons,
        List.filter_cons_of_pos selected, ← ih, List.filter_filter]
      simp only [Bool.and_comm]
    | false =>
      -- the selection has left out the first element, so nothing more of it is left to leave out
      have same : as.filter p = as.filter fun b => p b && !b == a := by
        apply List.filter_congr
        intro b _
        cases equal : b == a with
        | true => rw [h equal, selected, Bool.false_and]
        | false => rw [Bool.not_false, Bool.and_true]
      rw [List.filter_cons_of_neg (by simp [selected]), List.eraseDups_cons,
        List.filter_cons_of_neg (by simp [selected]), same, ih]

section Equivalence

variable [EquivBEq α]

/-- Leaving out what equals `a` does not show to what is not equal to it. -/
theorem contains_filter_of_beq_eq_false {a b : α} (h : (b == a) = false) (as : List α) :
    (as.filter fun c => !c == a).contains b = as.contains b := by
  have kept : ∀ c, (b == c && !c == a) = (b == c) := by
    intro c
    cases equal : b == c with
    | true => rw [← BEq.congr_left equal, h, Bool.not_false, Bool.and_true]
    | false => rw [Bool.false_and]
  rw [List.contains_filter, List.contains_eq_any_beq]
  simp only [kept]

theorem contains_eraseDups (as : List α) (a : α) : as.eraseDups.contains a = as.contains a := by
  induction as using eraseDups_induction with
  | nil => rfl
  | cons b as ih =>
    rw [List.eraseDups_cons, List.contains_cons, List.contains_cons, ih]
    cases equal : a == b with
    | true => rw [Bool.true_or, Bool.true_or]
    | false => rw [contains_filter_of_beq_eq_false equal]

/-- Behind a list, what equals one of its elements is left out. -/
theorem eraseDups_append_filter (as bs : List α) :
    (as ++ bs).eraseDups = as.eraseDups ++ (bs.filter fun b => !as.contains b).eraseDups := by
  induction as using eraseDups_induction generalizing bs with
  | nil =>
    have all : (bs.filter fun b => !([] : List α).contains b) = bs :=
      List.filter_eq_self.2 fun _ _ => rfl
    rw [all]
    rfl
  | cons a as ih =>
    have rest : ((bs.filter fun b => !b == a).filter
          fun b => !(as.filter fun c => !c == a).contains b) =
        bs.filter fun b => !(a :: as).contains b := by
      rw [List.filter_filter]
      apply List.filter_congr
      intro b _
      rw [List.contains_cons]
      cases equal : b == a with
      | true => simp
      | false => simp [contains_filter_of_beq_eq_false equal]
    rw [List.cons_append, List.eraseDups_cons, List.filter_append, ih, rest, List.eraseDups_cons,
      List.cons_append]

/-- Two lists with the same first occurrences contain the same elements, so they leave the same out
of what follows, and of what follows only the first occurrences matter. -/
theorem eraseDups_append_congr {as as' bs bs' : List α} (h : as.eraseDups = as'.eraseDups)
    (h' : bs.eraseDups = bs'.eraseDups) : (as ++ bs).eraseDups = (as' ++ bs').eraseDups := by
  have same : ∀ b, as.contains b = as'.contains b := by
    intro b
    rw [← contains_eraseDups, h, contains_eraseDups]
  have shared : ∀ {b b' : α}, (b == b') = true → (!as'.contains b) = !as'.contains b' :=
    fun equal => congrArg not (List.contains_congr equal)
  rw [eraseDups_append_filter, eraseDups_append_filter, h]
  simp only [same]
  rw [eraseDups_filter shared, eraseDups_filter shared, h']

theorem eraseDups_eraseDups_append (as bs : List α) :
    (as.eraseDups ++ bs).eraseDups = (as ++ bs).eraseDups :=
  eraseDups_append_congr (eraseDups_eraseDups as) rfl

theorem eraseDups_append_eraseDups (as bs : List α) :
    (as ++ bs.eraseDups).eraseDups = (as ++ bs).eraseDups :=
  eraseDups_append_congr rfl (eraseDups_eraseDups bs)

/-- What is repeated behind a list adds nothing to its first occurrences. -/
theorem eraseDups_append_of_subset {as bs : List α} (h : bs ⊆ as) :
    (as ++ bs).eraseDups = as.eraseDups := by
  have none : (bs.filter fun b => !as.contains b) = [] := by
    apply List.filter_eq_nil_iff.2
    intro b hb
    simp [List.contains_iff_exists_mem_beq.2 ⟨b, h hb, BEq.rfl⟩]
  rw [eraseDups_append_filter, none, List.eraseDups_nil, List.append_nil]

end Equivalence

/-! ## The places that a hash set accepts -/

/-- The places at which an element of the list stands for the first time. -/
structure FirstPlaces (as : List α) (places : List Nat) : Prop where
  ascending : places.Pairwise (· < ·)
  mem_iff : ∀ i, i ∈ places ↔ ∃ h : i < as.length, ∀ j (_ : j < i), (as[j] == as[i]) = false
  idxOf_iff : ∀ i, i ∈ places ↔ ∃ h : i < as.length, as.idxOf as[i] = i

theorem contains_take_eq_false_iff [EquivBEq α] {as : List α} {i : Nat} (h : i < as.length) :
    (as.take i).contains as[i] = false ↔ ∀ j (_ : j < i), (as[j] == as[i]) = false := by
  rw [← Bool.not_eq_true, List.contains_iff_exists_mem_beq]
  constructor
  · intro none j hj
    rw [← Bool.not_eq_true, BEq.comm]
    exact fun equal => none ⟨as[j], List.mem_take_iff_getElem.2 ⟨j, by omega, rfl⟩, equal⟩
  · rintro different ⟨a, ha, equal⟩
    obtain ⟨j, hj, rfl⟩ := List.mem_take_iff_getElem.1 ha
    rw [BEq.comm, different j (by omega)] at equal
    cases equal

variable [Hashable α]

theorem ascending_distinctIdxs (as : List α) : (distinctIdxs as).Pairwise (· < ·) := by
  have numbered : ((isNew as).zipIdx.map Prod.snd).Pairwise (· < ·) := by
    rw [List.zipIdx_map_snd]
    exact List.pairwise_lt_range' 1
  rw [List.pairwise_map] at numbered
  apply numbered.filterMap
  intro p q less i hi j hj
  rw [Option.ite_none_right_eq_some, Option.some.injEq] at hi hj
  rwa [← hi.2, ← hj.2]

/-- Looking up the accepted places in the whole list, of which `as` is what follows `before`. -/
theorem filterMap_zip_newAfter (seen : Std.HashSet α) (before as : List α) :
    ((as.zip (newAfter seen as)).filterMap fun p => if p.2 then some p.1 else none) =
      (((newAfter seen as).zipIdx before.length).filterMap fun p =>
        if p.1 then some p.2 else none).filterMap ((before ++ as)[·]?) := by
  induction as generalizing seen before with
  | nil => rfl
  | cons a as ih =>
    have here : (before ++ a :: as)[before.length]? = some a := by simp
    have rest := ih (seen.insert a) (before ++ [a])
    rw [List.length_append, List.length_singleton, List.append_assoc, List.singleton_append] at rest
    rw [newAfter, List.zipIdx_cons, List.zip_cons_cons, List.filterMap_cons, List.filterMap_cons]
    cases !seen.contains a with
    | true => simp only [↓reduceIte, List.filterMap_cons, here, rest]
    | false => exact rest

theorem distinct_eq_filterMap_distinctIdxs (as : List α) :
    distinct as = (distinctIdxs as).filterMap (as[·]?) :=
  filterMap_zip_newAfter ∅ [] as

variable [EquivBEq α] [LawfulHashable α]

/-- An element is new when neither the set at the beginning nor what stands before the element
contains an equal one. -/
theorem getElem?_newAfter (seen : Std.HashSet α) (as : List α) (i : Nat) :
    (newAfter seen as)[i]? = as[i]?.map fun a => !(seen.contains a || (as.take i).contains a) := by
  induction as generalizing seen i with
  | nil => rfl
  | cons a as ih =>
    cases i with
    | zero => simp [newAfter]
    | succ i =>
      have later : ∀ b, ((seen.insert a).contains b || (as.take i).contains b) =
          (seen.contains b || ((a :: as).take (i + 1)).contains b) := by
        intro b
        rw [Std.HashSet.contains_insert, List.take_succ_cons, List.contains_cons, BEq.comm,
          Bool.or_comm (b == a), Bool.or_assoc]
      rw [newAfter, List.getElem?_cons_succ, ih, List.getElem?_cons_succ]
      simp only [later]

/-- A place is accepted when the element there is new. -/
theorem mem_distinctIdxs_iff {as : List α} {i : Nat} :
    i ∈ distinctIdxs as ↔ ∃ h : i < as.length, (as.take i).contains as[i] = false := by
  have accepted : i ∈ distinctIdxs as ↔ (isNew as)[i]? = some true := by
    simp [distinctIdxs, List.mem_filterMap, List.mem_zipIdx_iff_getElem?]
  rw [accepted, isNew, getElem?_newAfter]
  by_cases h : i < as.length
  · simp [h]
  · simp [h]

theorem firstPlaces_distinctIdxs (as : List α) : FirstPlaces as (distinctIdxs as) := by
  refine ⟨ascending_distinctIdxs as, fun i => ?_, fun i => ?_⟩
  · rw [mem_distinctIdxs_iff]
    exact exists_congr contains_take_eq_false_iff
  · rw [mem_distinctIdxs_iff]
    apply exists_congr
    intro h
    rw [contains_take_eq_false_iff, List.idxOf, List.findIdx_eq h]
    simp

end QueryLogic
