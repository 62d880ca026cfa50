import Mathlib.Data.List.TakeWhile
/-!
Cutting a word off the front of a text. A word is a run of characters that go on with it, and it ends
at the end of the text or where a character does not.
-/
namespace QueryLogic

section Cut

variable {p : Char → Bool} {cs rest : List Char}

theorem takeWhile_append_of_ends (inside : ∀ c ∈ cs, p c = true)
    (ends : ∀ c ∈ rest.head?, p c = false) : (cs ++ rest).takeWhile p = cs := by
  rw [List.takeWhile_append_of_pos inside]
  cases rest with
  | nil => exact List.append_nil cs
  | cons d ds => simp [ends d rfl]

theorem dropWhile_append_of_ends (inside : ∀ c ∈ cs, p c = true)
    (ends : ∀ c ∈ rest.head?, p c = false) : (cs ++ rest).dropWhile p = rest := by
  rw [List.dropWhile_append_of_pos inside]
  cases rest with
  | nil => rfl
  | cons d ds => simp [ends d rfl]

end Cut

theorem not_mem_of_isDigit {cs : List Char} {c : Char} (none : cs.any Char.isDigit = false)
    (h : c.isDigit = true) : c ∉ cs := by
  intro mem
  exact List.any_eq_false.1 none c mem h

end QueryLogic
