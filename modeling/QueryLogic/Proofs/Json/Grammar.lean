import QueryLogic.Json.Encode
/-!
The grammar of JSON texts. `Spells` says which texts stand for a value: blanks may surround every
value and every name of a field, a character of a string may be written in several ways, and numbers
are told from other words by a small automaton. A character beyond the four digits of an escape
stands for itself.

What is proved:
  1. `isNumber_ofNat`: the digits of a natural number are a number of the grammar.
  2. `charText_escaped`: a character is written in a form in which strings may hold it.
  3. `Written.array`, `Written.object`: the compact text of a list or an object stands for it when
     the text of each member does.
-/
namespace QueryLogic.Json

/-! ## Numbers -/

/-- How far a text has got as a number: behind its sign, in its whole part, and so on. -/
inductive NumberState
  | start
  | minus
  | zero
  | whole
  | point
  | fraction
  | mark
  | sign
  | exponent
  deriving DecidableEq, Repr

namespace NumberState

/-- Nothing follows a zero in front but a point or an exponent. -/
def digit? (d : Char) : NumberState → Option NumberState
  | start => some (if d = '0' then zero else whole)
  | minus => some (if d = '0' then zero else whole)
  | zero => none
  | whole => some whole
  | point => some fraction
  | fraction => some fraction
  | mark => some exponent
  | sign => some exponent
  | exponent => some exponent

def symbol? (c : Char) : NumberState → Option NumberState
  | start => if c = '-' then some minus else none
  | zero | whole => if c = '.' then some point else if c = 'e' ∨ c = 'E' then some mark else none
  | fraction => if c = 'e' ∨ c = 'E' then some mark else none
  | mark => if c = '+' ∨ c = '-' then some sign else none
  | _ => none

def next (s : NumberState) (c : Char) : Option NumberState :=
  if c.isDigit then s.digit? c else s.symbol? c

/-- Whether a number may end here: every part that has begun has a digit. -/
def complete : NumberState → Bool
  | zero | whole | fraction | exponent => true
  | _ => false

end NumberState

/-- Whether a text is a number: an optional minus sign, digits without leading zeros, and optionally
a fraction and an exponent. -/
def isNumber (cs : List Char) : Bool :=
  (cs.foldlM NumberState.next .start).any NumberState.complete

theorem foldlM_next_ofNat {n : Nat} (positive : n ≠ 0) :
    (Digits.ofNat n).foldlM NumberState.next .start = some .whole := by
  induction n using Nat.strongRecOn with
  | ind n ih =>
    by_cases small : n < 10
    · have front : ∀ m < 10, m ≠ 0 → NumberState.next .start m.digitChar = some .whole := by decide
      rw [Digits.ofNat, Nat.toDigits_of_lt_base small, List.foldlM_cons, front n small positive]
      rfl
    · have behind : ∀ m < 10, NumberState.next .whole m.digitChar = some .whole := by decide
      have last : [(n % 10).digitChar].foldlM NumberState.next .whole = some .whole := by
        rw [List.foldlM_cons, behind (n % 10) (Nat.mod_lt n (by decide))]
        rfl
      have prior := ih (n / 10) (by omega) (by omega)
      rw [Digits.ofNat, Nat.toDigits_of_base_le (by decide) (Nat.le_of_not_lt small),
        List.foldlM_append, ← Digits.ofNat, prior]
      exact last

theorem isNumber_ofNat (n : Nat) : isNumber (Digits.ofNat n) = true := by
  by_cases zero : n = 0
  · subst zero
    decide
  · rw [isNumber, foldlM_next_ofNat zero]
    rfl

example : isNumber ['-', '0', '.', '5', 'e', '+', '1', '0'] = true ∧ isNumber ['0', '1'] = false ∧
    isNumber ['1', '.'] = false := by decide

/-! ## Strings -/

/-- The letters that stand for a character behind a backslash. -/
def escapes : List (Char × Char) :=
  [(quote, quote), (backslash, backslash), ('/', '/'), ('b', '\x08'), ('f', '\x0c'), ('n', '\x0a'),
    ('r', '\x0d'), ('t', '\x09')]

def hexValue? (c : Char) : Option Nat :=
  if c.isDigit then some (c.toNat - '0'.toNat)
  else if 'a' ≤ c ∧ c ≤ 'f' then some (c.toNat - 'a'.toNat + 10)
  else if 'A' ≤ c ∧ c ≤ 'F' then some (c.toNat - 'A'.toNat + 10)
  else none

/-- The number that some hexadecimal digits stand for. -/
def hexNumber? (ds : List Char) : Option Nat :=
  ds.foldlM (fun n d => (hexValue? d).map (16 * n + ·)) 0

/-- The ways in which a character may be written in a string. -/
inductive CharText (c : Char) : List Char → Prop
  | self : 32 ≤ c.toNat → c ≠ quote → c ≠ backslash → CharText c [c]
  | letter {d : Char} : escapes.lookup d = some c → CharText c [backslash, d]
  | number {ds : List Char} : ds.length = 4 → hexNumber? ds = some c.toNat →
    CharText c (backslash :: 'u' :: ds)

/-- The ways in which characters may be written one after the other in a string. -/
inductive StringText : List Char → List Char → Prop
  | nil : StringText [] []
  | cons {c : Char} {cs ts us : List Char} :
    CharText c ts → StringText cs us → StringText (c :: cs) (ts ++ us)

theorem charText_escaped (c : Char) : CharText c (escaped c) := by
  unfold escaped
  -- seven characters have a letter of their own
  iterate 7
    split
    · next same =>
      subst same
      exact .letter rfl
  split
  · next control =>
    have digits : ∀ n < 32, hexNumber? ['0', '0', hexDigit (n / 16), hexDigit (n % 16)] = some n := by
      decide
    exact .number rfl (digits c.toNat control)
  · next noQuote noBackslash _ _ _ _ _ noControl =>
    exact .self (Nat.le_of_not_lt noControl) noQuote noBackslash

theorem stringText_escaped (cs : List Char) : StringText cs (cs.flatMap escaped) := by
  induction cs with
  | nil => exact .nil
  | cons c cs ih => exact .cons (charText_escaped c) ih

/-! ## Values -/

/-- The characters that may stand between the parts of a text. -/
def blanks : List Char := [' ', '\x09', '\x0a', '\x0d']

def Blank (cs : List Char) : Prop := ∀ c ∈ cs, c ∈ blanks

theorem Blank.nil : Blank [] := fun _ h => nomatch h

/-- What a piece of a JSON text may stand for. -/
inductive Part
  | value (j : Json)
  | items (js : List Json)
  | fields (fs : List (String × Json))

/-- The texts of a value, of the items of an array and of the fields of an object. -/
inductive Spells : Part → List Char → Prop
  | null : Spells (.value .null) ['n', 'u', 'l', 'l']
  | yes : Spells (.value (.bool true)) ['t', 'r', 'u', 'e']
  | no : Spells (.value (.bool false)) ['f', 'a', 'l', 's', 'e']
  | number {t : String} : isNumber t.toList = true → Spells (.value (.number t)) t.toList
  | string {s : String} {ts : List Char} : StringText s.toList ts →
    Spells (.value (.string s)) (quote :: (ts ++ [quote]))
  | emptyArray {us : List Char} : Blank us → Spells (.value (.array [])) ('[' :: (us ++ [']']))
  | array {js : List Json} {ts : List Char} : Spells (.items js) ts →
    Spells (.value (.array js)) ('[' :: (ts ++ [']']))
  | emptyObject {us : List Char} : Blank us →
    Spells (.value (.object [])) ('\x7b' :: (us ++ ['\x7d']))
  | object {fs : List (String × Json)} {ts : List Char} : Spells (.fields fs) ts →
    Spells (.value (.object fs)) ('\x7b' :: (ts ++ ['\x7d']))
  | padded {j : Json} {us ts vs : List Char} : Blank us → Spells (.value j) ts → Blank vs →
    Spells (.value j) (us ++ (ts ++ vs))
  | item {j : Json} {ts : List Char} : Spells (.value j) ts → Spells (.items [j]) ts
  | nextItem {j k : Json} {js : List Json} {ts us : List Char} : Spells (.value j) ts →
    Spells (.items (k :: js)) us → Spells (.items (j :: k :: js)) (ts ++ ',' :: us)
  | field {name : String} {j : Json} {ts us : List Char} : Spells (.value (.string name)) ts →
    Spells (.value j) us → Spells (.fields [(name, j)]) (ts ++ ':' :: us)
  | nextField {name : String} {j : Json} {f : String × Json} {fs : List (String × Json)}
    {ts us vs : List Char} : Spells (.value (.string name)) ts → Spells (.value j) us →
    Spells (.fields (f :: fs)) vs →
    Spells (.fields ((name, j) :: f :: fs)) (ts ++ ':' :: (us ++ ',' :: vs))

/-- The compact text of a value stands for the value. -/
def Written (j : Json) : Prop := Spells (.value j) (put j [])

theorem Written.spells_text {j : Json} (h : j.Written) : Spells (.value j) j.text.toList := by
  rw [text, String.toList_ofList]
  exact h

theorem put_eq_append (j : Json) (rest : List Char) : put j rest = put j [] ++ rest :=
  put_append [] rest j

theorem putItems_eq_append (js : List Json) (rest : List Char) :
    putItems js rest = putItems js [] ++ rest :=
  putItems_append [] rest js

theorem putFields_eq_append (fs : List (String × Json)) (rest : List Char) :
    putFields fs rest = putFields fs [] ++ rest :=
  putFields_append [] rest fs

namespace Written

theorem null : Written Json.null := Spells.null

theorem bool (b : Bool) : Written (.bool b) := by
  cases b with
  | true => exact Spells.yes
  | false => exact Spells.no

theorem string (s : String) : Written (.string s) :=
  Spells.string (stringText_escaped s.toList)

theorem natural (n : Nat) : Written (natural n) := by
  have digits : isNumber (String.ofList (Digits.ofNat n)).toList = true := by
    rw [String.toList_ofList]
    exact isNumber_ofNat n
  show Spells _ ((String.ofList (Digits.ofNat n)).toList ++ [])
  rw [List.append_nil]
  exact .number digits

theorem items {j : Json} {js : List Json} (h : ∀ k ∈ j :: js, Written k) :
    Spells (.items (j :: js)) (putItems (j :: js) []) := by
  induction js generalizing j with
  | nil => exact .item (h j List.mem_cons_self)
  | cons k js ih =>
    rw [putItems, put_eq_append]
    apply Spells.nextItem
    · exact h j List.mem_cons_self
    · exact ih fun l hl => h l (List.mem_cons_of_mem j hl)

theorem array {js : List Json} (h : ∀ j ∈ js, Written j) : Written (.array js) := by
  cases js with
  | nil => exact .emptyArray Blank.nil
  | cons j js =>
    show Spells _ ('[' :: putItems (j :: js) [']'])
    rw [putItems_eq_append]
    exact .array (items h)

theorem fields {f : String × Json} {fs : List (String × Json)} (h : ∀ g ∈ f :: fs, Written g.2) :
    Spells (.fields (f :: fs)) (putFields (f :: fs) []) := by
  have name : ∀ (s : String) (rest : List Char), putString s rest = put (.string s) [] ++ rest := by
    intro s rest
    exact put_eq_append (.string s) rest
  induction fs generalizing f with
  | nil =>
    rw [putFields, name]
    exact .field (string f.1) (h f List.mem_cons_self)
  | cons g fs ih =>
    rw [putFields, name, put_eq_append f.2]
    apply Spells.nextField
    · exact string f.1
    · exact h f List.mem_cons_self
    · exact ih fun k hk => h k (List.mem_cons_of_mem f hk)

theorem object {fs : List (String × Json)} (h : ∀ f ∈ fs, Written f.2) : Written (.object fs) := by
  cases fs with
  | nil => exact .emptyObject Blank.nil
  | cons f fs =>
    show Spells _ ('\x7b' :: putFields (f :: fs) ['\x7d'])
    rw [putFields_eq_append]
    exact .object (fields h)

theorem ofOption {α : Type} {f : α → Json} (h : ∀ a, Written (f a)) (o : Option α) :
    Written (ofOption f o) := by
  cases o with
  | none => exact null
  | some a => exact h a

end Written

end QueryLogic.Json
