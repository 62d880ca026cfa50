import QueryLogic.Expr.Equality
import QueryLogic.Proofs.Json.Reader
/-!
Conditions read from their JSON texts. Decoding follows encoding: fields are asked for by their names
and in their order, and anything else is refused. A double is refused as well, since its number does
not say which of the bits it had.

What is proved:
  1. `Expr.written_toJson`: without doubles, the text of a condition is a JSON text of its value.
  2. `Expr.ofJson?_toJson`: decoding that value gives the condition back, node for node.
  3. `Expr.decode?_text_toJson`: hence a condition without doubles is decoded from its text, and no
     other condition without doubles has the same text.
-/
namespace QueryLogic

/-! ## Decoding -/

namespace Json

def natural? : Json → Option Nat
  | number t => Digits.toNat? t.toList
  | _ => none

def string? : Json → Option String
  | string s => some s
  | _ => none

/-- Reads a value that may be missing. -/
def optional? {α : Type} (read : Json → Option α) : Json → Option (Option α)
  | null => some none
  | j => (read j).map some

/-- Reads the sign and the words of the size. -/
def integer? : Json → Option Int
  | array [string "Positive", array words] => (words.mapM natural?).map fun ws => Words.toNat ws
  | array [string "Negative", array words] => (words.mapM natural?).map fun ws => -Words.toNat ws
  | _ => none

end Json

def Location.ofJson? : Json → Option Location
  | .object [("line", l), ("column", c)] => do return ⟨← l.natural?, ← c.natural?⟩
  | _ => none

def Connective.ofJson? : Json → Option Connective
  | .string "And" => some and
  | .string "Or" => some or
  | _ => none

def ColumnName.ofJson? : Json → Option ColumnName
  | .object [("qualifier", q), ("name", n)] => do return ⟨← q.optional? Json.string?, ← n.string?⟩
  | _ => none

def Literal.ofJson? : Json → Option Literal
  | .string "Null" => some null
  | .object [("Boolean", .bool b)] => some (bool b)
  | .object [("Integer", j)] => j.integer?.map int
  | .object [("Decimal", .string s)] => (Decimal.ofChars? s.toList).map decimal
  | .object [("String", .string s)] => some (text s)
  | _ => none

namespace Expr

def ofJson? : Json → Option Expr
  | .object [("Literal", .object [("value", v), ("location", loc)])] => do
    return literal (← loc.optional? Location.ofJson?) (← Literal.ofJson? v)
  | .object [("Column", .object [("name", n), ("location", loc)])] => do
    return column (← loc.optional? Location.ofJson?) (← ColumnName.ofJson? n)
  | .object [("Not", .object [("operand", x), ("location", loc)])] => do
    return not (← loc.optional? Location.ofJson?) (← ofJson? x)
  | .object [("LogicalBinary", .object
      [("operator", c), ("left", l), ("right", r), ("location", loc)])] => do
    return binary (← loc.optional? Location.ofJson?) (← Connective.ofJson? c) (← ofJson? l)
      (← ofJson? r)
  | _ => none

/-- The condition that a JSON text stands for. -/
def decode? (text : String) : Option Expr := (Json.read? text).bind ofJson?

end Expr

/-! ## What was encoded is decoded -/

namespace Json

theorem natural?_natural (n : Nat) : (natural n).natural? = some n := by
  rw [natural, natural?, String.toList_ofList, Digits.toNat?_ofNat]

theorem mapM_natural? (ns : List Nat) : (ns.map natural).mapM natural? = some ns := by
  induction ns with
  | nil => rfl
  | cons n ns ih => simp [natural?_natural, ih]

theorem optional?_ofOption {α : Type} {read : Json → Option α} {write : α → Json}
    (present : ∀ a, write a ≠ null) (h : ∀ a, read (write a) = some a) (o : Option α) :
    (ofOption write o).optional? read = some o := by
  cases o with
  | none => rfl
  | some a =>
    rw [ofOption, optional?, h]
    · rfl
    · exact present a

theorem integer?_integer (i : Int) : (integer i).integer? = some i := by
  rw [integer]
  by_cases sign : i < 0
  · have size : -(i.natAbs : Int) = i := by omega
    rw [if_pos sign]
    show (((Words.ofNat i.natAbs).map natural).mapM natural?).map _ = _
    rw [mapM_natural?, Option.map_some, Words.toNat_ofNat, size]
  · have size : (i.natAbs : Int) = i := by omega
    rw [if_neg sign]
    show (((Words.ofNat i.natAbs).map natural).mapM natural?).map _ = _
    rw [mapM_natural?, Option.map_some, Words.toNat_ofNat, size]

end Json

theorem Location.ofJson?_toJson (loc : Location) : ofJson? loc.toJson = some loc := by
  simp [toJson, ofJson?, Json.natural?_natural]

theorem Location.optional?_toJson (loc : Option Location) :
    (Json.ofOption toJson loc).optional? ofJson? = some loc := by
  apply Json.optional?_ofOption
  · intro a
    exact Json.noConfusion
  · exact ofJson?_toJson

theorem Connective.ofJson?_toJson (c : Connective) : ofJson? c.toJson = some c := by
  cases c <;> rfl

theorem ColumnName.ofJson?_toJson (n : ColumnName) : ofJson? n.toJson = some n := by
  have qualifier : (Json.ofOption .string n.qualifier).optional? Json.string? =
      some n.qualifier := by
    apply Json.optional?_ofOption
    · intro q
      exact Json.noConfusion
    · intro q
      rfl
  simp [toJson, ofJson?, qualifier, Json.string?]

/-- Whether a literal is none of the doubles. -/
def Literal.doubleFree : Literal → Bool
  | double _ => false
  | _ => true

theorem Literal.ofJson?_toJson {v : Literal} (h : v.doubleFree = true) :
    ofJson? v.toJson = some v := by
  cases v with
  | int i =>
    show (Json.integer i).integer?.map int = _
    rw [Json.integer?_integer]
    rfl
  | decimal d =>
    show (Decimal.ofChars? (String.ofList d.toChars).toList).map decimal = _
    rw [String.toList_ofList, Decimal.ofChars?_toChars]
    rfl
  | double x => cases h
  | _ => rfl

namespace Expr

def doubleFree : Expr → Bool
  | literal _ v => v.doubleFree
  | column _ _ => true
  | not _ x => x.doubleFree
  | binary _ _ l r => l.doubleFree && r.doubleFree

theorem ofJson?_toJson {e : Expr} (h : e.doubleFree = true) : ofJson? e.toJson = some e := by
  induction e with
  | literal loc v =>
    simp [toJson, Json.tagged, ofJson?, Location.optional?_toJson, Literal.ofJson?_toJson h]
  | column loc n =>
    simp [toJson, Json.tagged, ofJson?, Location.optional?_toJson, ColumnName.ofJson?_toJson]
  | not loc x ih =>
    simp [toJson, Json.tagged, ofJson?, Location.optional?_toJson, ih h]
  | binary loc c l r ihl ihr =>
    simp only [doubleFree, Bool.and_eq_true] at h
    simp [toJson, Json.tagged, ofJson?, Location.optional?_toJson, Connective.ofJson?_toJson,
      ihl h.1, ihr h.2]

end Expr

/-! ## What was encoded is written as JSON -/

theorem Json.Written.tagged {tag : String} {j : Json} (h : j.Written) :
    (Json.tagged tag j).Written := by
  apply Json.Written.object
  simpa using h

theorem Location.written_toJson (loc : Location) : loc.toJson.Written := by
  apply Json.Written.object
  simp [Json.Written.natural]

theorem Location.written_ofOption (loc : Option Location) :
    (Json.ofOption toJson loc).Written :=
  Json.Written.ofOption written_toJson loc

theorem Connective.written_toJson (c : Connective) : c.toJson.Written := by
  cases c <;> exact Json.Written.string _

theorem ColumnName.written_toJson (n : ColumnName) : n.toJson.Written := by
  apply Json.Written.object
  simp [Json.Written.string, Json.Written.ofOption]

theorem Json.written_integer (i : Int) : (Json.integer i).Written := by
  have words : (Json.array ((Words.ofNat i.natAbs).map natural)).Written := by
    apply Json.Written.array
    simp [Json.Written.natural]
  apply Json.Written.array
  simp [Json.Written.string, words]

theorem Literal.written_toJson {v : Literal} (h : v.doubleFree = true) : v.toJson.Written := by
  cases v with
  | null => exact Json.Written.string "Null"
  | bool b => exact (Json.Written.bool b).tagged
  | int i => exact (Json.written_integer i).tagged
  | decimal d => exact (Json.Written.string d.text).tagged
  | double x => cases h
  | text s => exact (Json.Written.string s).tagged

namespace Expr

theorem written_toJson {e : Expr} (h : e.doubleFree = true) : e.toJson.Written := by
  induction e with
  | literal loc v =>
    apply Json.Written.tagged
    apply Json.Written.object
    simp [Literal.written_toJson h, Location.written_ofOption]
  | column loc n =>
    apply Json.Written.tagged
    apply Json.Written.object
    simp [ColumnName.written_toJson, Location.written_ofOption]
  | not loc x ih =>
    apply Json.Written.tagged
    apply Json.Written.object
    simp [ih h, Location.written_ofOption]
  | binary loc c l r ihl ihr =>
    simp only [doubleFree, Bool.and_eq_true] at h
    apply Json.Written.tagged
    apply Json.Written.object
    simp [Connective.written_toJson, ihl h.1, ihr h.2, Location.written_ofOption]

theorem spells_text_toJson {e : Expr} (h : e.doubleFree = true) :
    Json.Spells (.value e.toJson) e.toJson.text.toList :=
  (written_toJson h).spells_text

theorem decode?_text {e : Expr} (h : e.doubleFree = true) :
    decode? e.toJson.text = some e := by
  rw [decode?, Json.read?_text (written_toJson h), Option.bind_some, ofJson?_toJson h]

/-- The text of a condition is JSON, it is decoded to that condition, and no other one has it. -/
theorem decode?_text_toJson {e : Expr} (h : e.doubleFree = true) :
    Json.Spells (.value e.toJson) e.toJson.text.toList ∧ decode? e.toJson.text = some e ∧
      ∀ f : Expr, f.doubleFree = true → f.toJson.text = e.toJson.text → f = e := by
  refine ⟨spells_text_toJson h, decode?_text h, ?_⟩
  intro f hf same
  have decoded := decode?_text hf
  rw [same, decode?_text h] at decoded
  exact (Option.some.inj decoded).symm

end Expr

/-- A string of characters that are escaped, an integer of two words, and a decimal that is equal to
another one with fewer places. -/
theorem decode?_text_toJson_spellings :
    let escaped := Expr.literal none (.text (String.ofList [Json.quote, Json.backslash, '\x01', 'é']))
    let long := Expr.literal (some ⟨1, 9⟩) (.int (-18446744073709551617))
    let column := Expr.column none ⟨some "a.b", ""⟩
    let spelled := fun d : Decimal => Expr.binary none .or
      (.not (some ⟨3, 4⟩) (.binary (some ⟨0, 0⟩) .and long escaped))
      (.binary none .or column (.literal none (.decimal d)))
    let e := spelled ⟨150, 2⟩
    let f := spelled ⟨15, 1⟩
    e.doubleFree = true ∧ Json.Spells (.value e.toJson) e.toJson.text.toList ∧
      Expr.decode? e.toJson.text = some e ∧ (f == e) = true ∧ f.toJson.text ≠ e.toJson.text := by
  intro escaped long column spelled e f
  have free : e.doubleFree = true := by decide
  obtain ⟨spells, decoded, only⟩ := Expr.decode?_text_toJson free
  refine ⟨free, spells, decoded, by decide, ?_⟩
  intro same
  have identical : f = e := only f (by decide) same
  have different : f ≠ e := by decide
  exact different identical

end QueryLogic
