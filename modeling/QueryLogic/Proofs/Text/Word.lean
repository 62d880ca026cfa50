import Mathlib.Data.Bool.AllAny
import QueryLogic.Proofs.Cut
import QueryLogic.Proofs.Text.Name
import QueryLogic.Text.Print
/-!
Tokens of a written condition, and the words that are tokens. A word is a keyword in any case, an
integer with an optional sign, or the name of a column: an identifier, possibly qualified by another
one. Which characters count as letters is left open, as long as digits and the marks with a meaning
of their own do not.

What is proved:
  1. `ofWord?_keyword`: every style writes keywords that are read as keywords.
  2. `ofWord?_ofInt`: an integer of any size is read from its digits.
  3. `ofWord?_text`: a plain column is read from its text, with its qualifier.
-/
namespace QueryLogic

/-- One word or mark of a written condition. -/
inductive Token
  | literal (v : Literal)
  | column (n : ColumnName)
  | not
  | connective (c : Connective)
  | opening
  | closing
  deriving DecidableEq, Repr

/-- The characters that end a word. -/
def separators : List Char := [' ', '\t', '\r', '\n', '(', ')', quoteMark]

/-- Whether a character may belong to a word. -/
def inWord (c : Char) : Bool := decide (c ∉ separators)

/-- The characters with a meaning of their own inside a word or between words. -/
def marks : List Char := '.' :: '-' :: '+' :: separators

/-- Which characters are letters. -/
structure Alphabet where
  letter : Char → Bool
  not_mark : ∀ c ∈ marks, letter c = false
  not_digit : ∀ c : Char, c.isDigit = true → letter c = false

def latin : Alphabet where
  letter := Char.isAlpha
  not_mark := List.all_iff_forall_prop.1 (by decide)
  not_digit c h := by
    simp only [Char.isDigit, Bool.and_eq_true, decide_eq_true_eq] at h
    unfold Char.isAlpha Char.isUpper Char.isLower
    simp only [Bool.or_eq_false_iff, Bool.and_eq_false_iff, decide_eq_false_iff_not]
    grind

/-! ## Words -/

/-- The words with a meaning of their own, in upper case. -/
def keywords : List (String × Token) :=
  [("AND", .connective .and), ("OR", .connective .or), ("NOT", .not), ("NULL", .literal .null),
    ("TRUE", .literal (.bool true)), ("FALSE", .literal (.bool false))]

/-- The keyword that a word is, in whatever case it is written. -/
def keyword? (w : List Char) : Option Token :=
  keywords.lookup (String.ofList (w.map Char.toUpper))

/-- Reads digits with an optional sign. -/
def integer? : List Char → Option Int
  | '+' :: cs => (Digits.toNat? cs).map Int.ofNat
  | cs => Digits.toInt? cs

namespace Alphabet

variable (A : Alphabet)

def initial (c : Char) : Bool := A.letter c || c == '_'

def part (c : Char) : Bool := A.initial c || c.isDigit

/-- A plain identifier: no digit at the front, and no keyword. -/
def identifier : List Char → Bool
  | [] => false
  | c :: cs => A.initial c && cs.all A.part && (keyword? (c :: cs)).isNone

/-- A column whose name and qualifier, if there is one, are plain identifiers. -/
def plain (n : ColumnName) : Bool :=
  (n.qualifier.all fun q => A.identifier q.toList) && A.identifier n.base.toList

def column? (w : List Char) : Option ColumnName :=
  (some (ColumnName.ofText (String.ofList w))).filter A.plain

/-- What a word is: a keyword first, then a number, then a column. -/
def ofWord? (w : List Char) : Option Token :=
  (keyword? w).or (((integer? w).map fun i => Token.literal (.int i)).or
    ((A.column? w).map Token.column))

end Alphabet

/-! ## What the words of a written condition are -/

section Words

variable {A : Alphabet}

/-- The letters that keywords are made of. -/
def keywordLetters : List Char := ['A', 'D', 'E', 'F', 'L', 'N', 'O', 'R', 'S', 'T', 'U']

theorem keyword?_eq_none {w : List Char} {c : Char} (h : c ∈ w)
    (other : c.toUpper ∉ keywordLetters) : keyword? w = none := by
  have letters : ∀ p ∈ keywords, p.1.toList.all (fun d => d ∈ keywordLetters) = true := by decide
  apply List.lookup_eq_none_iff.2
  intro p hp
  apply bne_iff_ne.2
  intro same
  have mem : c.toUpper ∈ p.1.toList := by
    rw [← same, String.toList_ofList]
    exact List.mem_map_of_mem h
  exact other (List.all_iff_forall_prop.1 (letters p hp) c.toUpper mem)

theorem toUpper_of_isDigit {c : Char} (h : c.isDigit = true) : c.toUpper = c := by
  simp only [Char.isDigit, Bool.and_eq_true, decide_eq_true_eq] at h
  unfold Char.toUpper
  grind

theorem inWord_of_isDigit {c : Char} (h : c.isDigit = true) : inWord c = true :=
  decide_eq_true (not_mem_of_isDigit (by decide) h)

theorem keyword?_eq_none_of_isDigit {w : List Char} {c : Char} (mem : c ∈ w)
    (h : c.isDigit = true) : keyword? w = none := by
  apply keyword?_eq_none mem
  rw [toUpper_of_isDigit h]
  exact not_mem_of_isDigit (by decide) h

/-- In the case of either style a keyword is one word and is read as what it is. -/
theorem keyword_spec (s : Style) {p : String × Token} (h : p ∈ keywords) :
    (s.keyword p.1).toList ≠ [] ∧ (s.keyword p.1).toList.all inWord = true ∧
      keyword? (s.keyword p.1).toList = some p.2 := by
  have known : ∀ k : KeywordCase, ∀ p ∈ keywords,
      let word := ((⟨k, .minimal⟩ : Style).keyword p.1).toList
      word ≠ [] ∧ word.all inWord = true ∧ keyword? word = some p.2 := by
    intro k
    cases k <;> decide
  -- the rule for parentheses has no part in it
  exact known s.keywords p h

theorem ofWord?_keyword (A : Alphabet) (s : Style) {p : String × Token} (h : p ∈ keywords) :
    A.ofWord? (s.keyword p.1).toList = some p.2 := by
  obtain ⟨-, -, known⟩ := keyword_spec s h
  rw [Alphabet.ofWord?, known]
  rfl

/-! ### Integers -/

theorem mem_ofInt {i : Int} {c : Char} (h : c ∈ Digits.ofInt i) : c = '-' ∨ c.isDigit = true := by
  cases i with
  | ofNat n => exact .inr (Digits.isDigit_of_mem_ofNat h)
  | negSucc n =>
    rcases List.mem_cons.1 h with h | h
    · exact .inl h
    · exact .inr (Digits.isDigit_of_mem_ofNat h)

theorem exists_digit_mem_ofInt (i : Int) : ∃ c ∈ Digits.ofInt i, c.isDigit = true := by
  have digit : ∀ n, ∃ c ∈ Digits.ofNat n, c.isDigit = true := by
    intro n
    obtain ⟨c, cs, front, isDigit⟩ := Digits.exists_ofNat_eq_cons n
    exact ⟨c, front ▸ List.mem_cons_self, isDigit⟩
  cases i with
  | ofNat n => exact digit n
  | negSucc n =>
    obtain ⟨c, mem, h⟩ := digit (n + 1)
    exact ⟨c, List.mem_cons_of_mem '-' mem, h⟩

theorem integer?_ofInt (i : Int) : integer? (Digits.ofInt i) = some i := by
  rw [integer?.eq_2, Digits.toInt?_ofInt]
  intro cs plus
  have mem : '+' ∈ Digits.ofInt i := plus ▸ List.mem_cons_self
  rcases mem_ofInt mem with h | h
  · exact absurd h (by decide)
  · exact absurd h (by decide)

theorem ofWord?_ofInt (A : Alphabet) (i : Int) :
    A.ofWord? (Digits.ofInt i) = some (.literal (.int i)) := by
  obtain ⟨c, mem, h⟩ := exists_digit_mem_ofInt i
  rw [Alphabet.ofWord?, keyword?_eq_none_of_isDigit mem h, integer?_ofInt]
  rfl

/-! ### Columns -/

namespace Alphabet

theorem initial_ne {c d : Char} (h : A.initial c = true) (hd : d ∈ marks) : c ≠ d := by
  rintro rfl
  have underscore : '_' ∉ marks := by decide
  rw [initial, Bool.or_eq_true, A.not_mark c hd, beq_iff_eq] at h
  rcases h with h | rfl
  · cases h
  · exact underscore hd

theorem isDigit_eq_false_of_initial {c : Char} (h : A.initial c = true) : c.isDigit = false := by
  rw [initial, Bool.or_eq_true, beq_iff_eq] at h
  rcases h with h | rfl
  · apply Bool.eq_false_iff.2
    intro digit
    rw [A.not_digit c digit] at h
    cases h
  · decide

theorem part_ne {c d : Char} (h : A.part c = true) (hd : d ∈ marks) : c ≠ d := by
  rw [part, Bool.or_eq_true] at h
  rcases h with h | h
  · exact initial_ne h hd
  · rintro rfl
    exact not_mem_of_isDigit (by decide) h hd

theorem inWord_of_part {c : Char} (h : A.part c = true) : inWord c = true := by
  apply decide_eq_true
  intro mem
  exact part_ne h (List.mem_append_right ['.', '-', '+'] mem) rfl

theorem identifier_iff {w : List Char} : A.identifier w = true ↔
    (∃ c cs, w = c :: cs ∧ A.initial c = true) ∧ (∀ c ∈ w, A.part c = true) ∧ keyword? w = none := by
  cases w with
  | nil => simp [identifier]
  | cons c cs =>
    simp only [identifier, Bool.and_eq_true, List.all_eq_true, Option.isNone_iff_eq_none]
    constructor
    · rintro ⟨⟨front, rest⟩, free⟩
      refine ⟨⟨c, cs, rfl, front⟩, List.forall_mem_cons.2 ⟨?_, rest⟩, free⟩
      rw [part, front, Bool.true_or]
    · rintro ⟨⟨_, _, same, front⟩, all, free⟩
      cases same
      exact ⟨⟨front, (List.forall_mem_cons.1 all).2⟩, free⟩

theorem point_not_mem_of_identifier {w : List Char} (h : A.identifier w = true) : '.' ∉ w := by
  intro point
  obtain ⟨-, chars, -⟩ := identifier_iff.1 h
  exact part_ne (chars '.' point) (by decide) rfl

theorem plain_none (base : String) : A.plain ⟨none, base⟩ = A.identifier base.toList :=
  Bool.true_and _

theorem plain_some_iff {q base : String} :
    A.plain ⟨some q, base⟩ = true ↔
      A.identifier q.toList = true ∧ A.identifier base.toList = true := by
  simp [plain]

end Alphabet

theorem toNat?_eq_none_of_mem {cs : List Char} {c : Char} (mem : c ∈ cs) (h : c.isDigit = false) :
    Digits.toNat? cs = none := by
  have other : cs.all Char.isDigit = false := List.all_eq_false.2 ⟨c, mem, by rw [h]; decide⟩
  rw [Digits.toNat?, other, if_neg Bool.false_ne_true, ite_self]

/-- In the text of an integer there are only digits and signs. -/
theorem integer?_eq_none_of_mem {cs : List Char} {c : Char} (mem : c ∈ cs)
    (h : c.isDigit = false) (sign : c ∉ ['+', '-']) : integer? cs = none := by
  simp only [List.mem_cons, List.not_mem_nil, or_false, not_or] at sign
  unfold integer?
  split
  · next cs =>
    rw [toNat?_eq_none_of_mem (List.mem_of_ne_of_mem sign.1 mem) h, Option.map_none]
  · unfold Digits.toInt?
    split
    · rw [toNat?_eq_none_of_mem (List.mem_of_ne_of_mem sign.2 mem) h, Option.map_none]
    · rw [toNat?_eq_none_of_mem mem h, Option.map_none]

theorem mem_text_of_plain {n : ColumnName} (h : A.plain n = true) {c : Char}
    (hc : c ∈ n.text.toList) : A.part c = true ∨ c = '.' := by
  obtain ⟨_ | q, base⟩ := n
  · rw [Alphabet.plain_none, Alphabet.identifier_iff] at h
    exact .inl (h.2.1 c hc)
  · rw [Alphabet.plain_some_iff, Alphabet.identifier_iff, Alphabet.identifier_iff] at h
    rw [ColumnName.toList_text_some, List.mem_append, List.mem_cons] at hc
    rcases hc with hc | hc | hc
    · exact .inl (h.1.2.1 c hc)
    · exact .inr hc
    · exact .inl (h.2.2.1 c hc)

theorem front_of_plain {n : ColumnName} (h : A.plain n = true) :
    (∃ c cs, n.text.toList = c :: cs ∧ A.initial c = true) ∧ keyword? n.text.toList = none := by
  obtain ⟨_ | q, base⟩ := n
  · rw [Alphabet.plain_none, Alphabet.identifier_iff] at h
    exact ⟨h.1, h.2.2⟩
  · rw [Alphabet.plain_some_iff, Alphabet.identifier_iff] at h
    obtain ⟨c, cs, front, initial⟩ := h.1.1
    rw [ColumnName.toList_text_some]
    constructor
    · refine ⟨c, cs ++ '.' :: base.toList, ?_, initial⟩
      rw [front, List.cons_append]
    · -- no keyword has a point in it
      have point : '.' ∈ q.toList ++ '.' :: base.toList :=
        List.mem_append_right _ List.mem_cons_self
      exact keyword?_eq_none point (by decide)

theorem ofWord?_text {n : ColumnName} (h : A.plain n = true) :
    A.ofWord? n.text.toList = some (.column n) := by
  obtain ⟨⟨c, cs, front, initial⟩, free⟩ := front_of_plain h
  have number : integer? n.text.toList = none := by
    have mem : c ∈ n.text.toList := front ▸ List.mem_cons_self
    have signs : ['+', '-'] ⊆ marks := by decide
    refine integer?_eq_none_of_mem mem (Alphabet.isDigit_eq_false_of_initial initial) ?_
    intro sign
    exact Alphabet.initial_ne initial (signs sign) rfl
  have split : n.SplitAtFirst := by
    obtain ⟨_ | q, base⟩ := n
    · rw [Alphabet.plain_none] at h
      exact ColumnName.splitAtFirst_none.2 (Alphabet.point_not_mem_of_identifier h)
    · have qualifier := (Alphabet.plain_some_iff.1 h).1
      exact ColumnName.splitAtFirst_some.2 (Alphabet.point_not_mem_of_identifier qualifier)
  have column : A.column? n.text.toList = some n := by
    rw [Alphabet.column?, String.ofList_toList, ColumnName.ofText_text split]
    exact Option.filter_some_pos h
  rw [Alphabet.ofWord?, free, number, column]
  rfl

end Words

end QueryLogic
