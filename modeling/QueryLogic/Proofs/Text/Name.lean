import Mathlib.Data.List.TakeWhile
import QueryLogic.ColumnName
/-!
Names of columns and their text. Reading splits a text at its first point, so a name is read back from
its text exactly when this point is the one that was put behind its qualifier. Every text is written
for one such name, and reading finds it; so names of this kind are told apart by their texts.

What is proved:
  1. `ColumnName.ofText_text`: a name that is split at the first point of its text is read back.
  2. `ColumnName.exists_text_eq`: every text is that of such a name.
  3. `ColumnName.text_ofText` and `ColumnName.ofText_text_iff`: what is read from a text has this text,
     and no other names are read back.
  4. `ColumnName.text_ofText_and_ofText_text_iff`: all of this, and that such names differ in their texts.
-/
namespace QueryLogic.ColumnName

/-- The first point of the written name, if it has one, is that behind the qualifier. -/
def SplitAtFirst (n : ColumnName) : Prop :=
  (n.qualifier = none ∧ '.' ∉ n.base.toList) ∨ ∃ q, n.qualifier = some q ∧ '.' ∉ q.toList

theorem splitAtFirst_none {base : String} :
    SplitAtFirst ⟨none, base⟩ ↔ '.' ∉ base.toList := by
  simp [SplitAtFirst]

theorem splitAtFirst_some {q base : String} :
    SplitAtFirst ⟨some q, base⟩ ↔ '.' ∉ q.toList := by
  simp [SplitAtFirst]

theorem toList_text_none (base : String) : (ColumnName.mk none base).text.toList = base.toList := rfl

theorem toList_text_some (q base : String) :
    (ColumnName.mk (some q) base).text.toList = q.toList ++ '.' :: base.toList := by
  simp [text]

theorem ofText_text {n : ColumnName} (h : n.SplitAtFirst) : ofText n.text = n := by
  have inside : ∀ {s : String}, '.' ∉ s.toList → ∀ c ∈ s.toList, decide (c ≠ '.') = true := by
    intro s none c hc
    apply decide_eq_true
    rintro rfl
    exact none hc
  obtain ⟨_ | q, base⟩ := n
  · have none : base.toList.dropWhile (fun c => decide (c ≠ '.')) = [] := by
      have base : ∀ c ∈ base.toList, decide (c ≠ '.') = true := inside (splitAtFirst_none.1 h)
      exact List.dropWhile_eq_nil_iff.2 base
    rw [ofText, toList_text_none, none]
    rfl
  · have qualifier : ∀ c ∈ q.toList, decide (c ≠ '.') = true := inside (splitAtFirst_some.1 h)
    rw [ofText, toList_text_some, List.dropWhile_append_of_pos qualifier,
      List.takeWhile_append_of_pos qualifier]
    simp

/-- Cutting a text at its first point makes a name of it. -/
theorem exists_text_eq (s : String) : ∃ n : ColumnName, n.SplitAtFirst ∧ n.text = s := by
  by_cases point : '.' ∈ s.toList
  · obtain ⟨q, base, cut, first⟩ := List.eq_append_cons_of_mem point
    refine ⟨⟨some (String.ofList q), String.ofList base⟩, ?_, ?_⟩
    · rw [splitAtFirst_some, String.toList_ofList]
      exact first
    · apply String.toList_inj.1
      rw [toList_text_some, String.toList_ofList, String.toList_ofList, cut]
  · exact ⟨⟨none, s⟩, splitAtFirst_none.2 point, rfl⟩

theorem text_ofText (s : String) : (ofText s).text = s := by
  obtain ⟨n, split, rfl⟩ := exists_text_eq s
  rw [ofText_text split]

theorem ofText_text_iff {n : ColumnName} : ofText n.text = n ↔ n.SplitAtFirst := by
  constructor
  · intro back
    obtain ⟨m, split, same⟩ := exists_text_eq n.text
    rw [← same, ofText_text split] at back
    exact back ▸ split
  · exact ofText_text

/-- Reading loses nothing of a text. Writing loses nothing of a name exactly when the name is split at
the first point of its text, and of such names no two have the same text. -/
theorem text_ofText_and_ofText_text_iff :
    (∀ s, (ofText s).text = s) ∧
      (∀ n, ofText n.text = n ↔ n.SplitAtFirst) ∧
      ∀ m n : ColumnName, m.SplitAtFirst → n.SplitAtFirst → m ≠ n → m.text ≠ n.text := by
  refine ⟨text_ofText, fun _ => ofText_text_iff, ?_⟩
  intro m n hm hn different same
  apply different
  rw [← ofText_text hm, same, ofText_text hn]

/-- Names with empty parts and with points in the base are told apart. With a point in its qualifier a
name has the text of another one, as which it is read. -/
theorem text_ofText_and_ofText_text_iff_points :
    let m : ColumnName := ⟨some "a", "b.c"⟩
    let n : ColumnName := ⟨some "", "a.b.c"⟩
    let other : ColumnName := ⟨some "a.b", "c"⟩
    m.text ≠ n.text ∧ ofText n.text = n ∧ other.text = m.text ∧ ofText other.text ≠ other := by
  intro m n other
  obtain ⟨-, back, apart⟩ := text_ofText_and_ofText_text_iff
  refine ⟨?_, ?_, by decide, ?_⟩
  · exact apart m n (splitAtFirst_some.2 (by decide)) (splitAtFirst_some.2 (by decide)) (by decide)
  · exact (back n).2 (splitAtFirst_some.2 (by decide))
  · rw [ne_eq, back other]
    exact splitAtFirst_some.not.2 (by decide)

end QueryLogic.ColumnName
