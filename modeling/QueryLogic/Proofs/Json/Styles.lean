import QueryLogic.Json.Options
import QueryLogic.Proofs.Json.Reader
/-!
Which JSON values are styles. An object may give each of the two choices in the field of its name, and
a list gives the first of them, or both, in their order; a choice that is not given is the usual one.
Nothing else about the value matters: not the order of the fields of an object, and no field of another
name. Objects are those of JSON, in which no two fields have one name.

What is proved:
  1. `Json.choice?_eq_some_iff`: the two ways of naming a choice.
  2. `Json.lookup_eq_some_iff_mem`: with distinct names it does not matter where a field stands.
  3. `Style.exists_ofJson?_iff_accepted`: the values that are read as styles.
  4. `Style.ofJson?_object_eq_some_iff`: the style as which an object is read.
  5. `Style.ofJson?_array`: a list is read as the object that has its items as fields.
  6. `Style.read?_text_toJson`: a style is read from the text in which it is written.
-/
namespace QueryLogic

namespace Json

/-! ## Choices -/

/-- A choice is named by a string, or by the only field of an object, which then is `null`. -/
inductive Names : Json → String → Prop
  | plain (name : String) : Names (.string name) name
  | field (name : String) : Names (.object [(name, .null)]) name

theorem choice?_eq_some_iff {j : Json} {name : String} :
    j.choice? = some name ↔ j.Names name := by
  constructor
  · intro h
    unfold choice? at h
    split at h
    · cases h
      exact .plain name
    · cases h
      exact .field name
    · cases h
  · rintro (_ | _)
    · rfl
    · rfl

/-- Reading a choice finds the value whose name is given. -/
theorem bind_choice?_eq_some_iff {α : Type} {ofName? : String → Option α} {name : α → String}
    (h : ∀ s a, ofName? s = some a ↔ s = name a) {j : Json} {a : α} :
    j.choice?.bind ofName? = some a ↔ j.Names (name a) := by
  simp only [Option.bind_eq_some_iff, choice?_eq_some_iff, h]
  constructor
  · rintro ⟨s, named, rfl⟩
    exact named
  · intro named
    exact ⟨name a, named, rfl⟩

/-! ## Fields -/

/-- No two fields of the object, if it is one, have the same name. -/
def DistinctNames : Json → Prop
  | object fields => (fields.map Prod.fst).Nodup
  | _ => True

theorem lookup_eq_some_iff_mem {fields : List (String × Json)}
    (distinct : (object fields).DistinctNames) {name : String} {j : Json} :
    fields.lookup name = some j ↔ (name, j) ∈ fields := by
  rw [List.lookup_eq_some_iff]
  constructor
  · rintro ⟨before, after, rfl, -⟩
    exact List.mem_append_right before List.mem_cons_self
  · intro mem
    obtain ⟨before, after, rfl⟩ := List.append_of_mem mem
    refine ⟨before, after, rfl, fun other hother => ?_⟩
    rw [DistinctNames, List.map_append, List.nodup_append] at distinct
    obtain ⟨-, -, apart⟩ := distinct
    exact bne_iff_ne.2 (apart other.1 (List.mem_map_of_mem hother) name List.mem_cons_self).symm

end Json

theorem KeywordCase.ofName?_eq_some_iff {s : String} {k : KeywordCase} :
    ofName? s = some k ↔ s = k.name := by
  constructor
  · intro h
    unfold ofName? at h
    split at h <;> cases h <;> rfl
  · rintro rfl
    cases k <;> rfl

theorem ParenRule.ofName?_eq_some_iff {s : String} {p : ParenRule} :
    ofName? s = some p ↔ s = p.name := by
  constructor
  · intro h
    unfold ofName? at h
    split at h <;> cases h <;> rfl
  · rintro rfl
    cases p <;> rfl

theorem KeywordCase.ofJson?_eq_some_iff {j : Json} {k : KeywordCase} :
    ofJson? j = some k ↔ j.Names k.name :=
  Json.bind_choice?_eq_some_iff fun _ _ => ofName?_eq_some_iff

theorem ParenRule.ofJson?_eq_some_iff {j : Json} {p : ParenRule} :
    ofJson? j = some p ↔ j.Names p.name :=
  Json.bind_choice?_eq_some_iff fun _ _ => ofName?_eq_some_iff

namespace Style

variable {s : Style}

/-! ## Values that may be missing -/

/-- A choice as it is made by a value that may be missing. -/
structure Chosen {α : Type} (name : α → String) (usual : α) (given : Option Json) (a : α) : Prop where
  named : ∀ j ∈ given, j.Names (name a)
  missing : given = none → a = usual

theorem orUsual_eq_some_iff {α : Type} {read : Json → Option α} {name : α → String} {usual a : α}
    (h : ∀ {j a}, read j = some a ↔ j.Names (name a)) {given : Option Json} :
    orUsual usual read given = some a ↔ Chosen name usual given a := by
  cases given with
  | none =>
    constructor
    · intro same
      exact ⟨nofun, fun _ => (Option.some.inj same).symm⟩
    · intro chosen
      rw [chosen.missing rfl]
      rfl
  | some j =>
    constructor
    · intro found
      refine ⟨fun k hk => ?_, nofun⟩
      cases hk
      exact h.1 found
    · intro chosen
      exact h.2 (chosen.named j rfl)

theorem exists_chosen_iff {α : Type} {name : α → String} (usual : α) {given : Option Json} :
    (∃ a, Chosen name usual given a) ↔ ∀ j ∈ given, ∃ a, j.Names (name a) := by
  constructor
  · rintro ⟨a, chosen⟩ j hj
    exact ⟨a, chosen.named j hj⟩
  · intro named
    cases given with
    | none => exact ⟨usual, nofun, fun _ => rfl⟩
    | some j =>
      obtain ⟨a, ha⟩ := named j rfl
      refine ⟨a, fun k hk => ?_, nofun⟩
      cases hk
      exact ha

theorem ofParts?_eq_some_iff {keywords parens : Option Json} :
    ofParts? keywords parens = some s ↔
      Chosen KeywordCase.name usual.keywords keywords s.keywords ∧
        Chosen ParenRule.name usual.parens parens s.parens := by
  rw [← orUsual_eq_some_iff KeywordCase.ofJson?_eq_some_iff,
    ← orUsual_eq_some_iff ParenRule.ofJson?_eq_some_iff]
  obtain ⟨k, p⟩ := s
  simp [ofParts?, Option.bind_eq_some_iff]

theorem exists_ofParts?_eq_some_iff {keywords parens : Option Json} :
    (∃ s, ofParts? keywords parens = some s) ↔
      (∀ j ∈ keywords, ∃ k : KeywordCase, j.Names k.name) ∧
        ∀ j ∈ parens, ∃ p : ParenRule, j.Names p.name := by
  rw [← exists_chosen_iff usual.keywords, ← exists_chosen_iff usual.parens]
  constructor
  · rintro ⟨s, found⟩
    obtain ⟨keywords, parens⟩ := ofParts?_eq_some_iff.1 found
    exact ⟨⟨_, keywords⟩, ⟨_, parens⟩⟩
  · rintro ⟨⟨k, keywords⟩, ⟨p, parens⟩⟩
    exact ⟨⟨k, p⟩, ofParts?_eq_some_iff.2 ⟨keywords, parens⟩⟩

/-! ## Values that are styles -/

/-- The names of the fields, in the order of the values in a list. -/
def fieldNames : List String := [keywordsField, parensField]

/-- The values in the format of a style. -/
inductive Accepted : Json → Prop
  | object {fields : List (String × Json)}
    (keywords : ∀ j, (keywordsField, j) ∈ fields → ∃ k : KeywordCase, j.Names k.name)
    (parens : ∀ j, (parensField, j) ∈ fields → ∃ p : ParenRule, j.Names p.name) :
    Accepted (.object fields)
  | neither : Accepted (.array [])
  | first {i : Json} {k : KeywordCase} : i.Names k.name → Accepted (.array [i])
  | both {i j : Json} {k : KeywordCase} {p : ParenRule} :
    i.Names k.name → j.Names p.name → Accepted (.array [i, j])

theorem exists_ofJson?_object_iff {fields : List (String × Json)}
    (distinct : (Json.object fields).DistinctNames) :
    (∃ s, ofJson? (.object fields) = some s) ↔
      (∀ j, (keywordsField, j) ∈ fields → ∃ k : KeywordCase, j.Names k.name) ∧
        ∀ j, (parensField, j) ∈ fields → ∃ p : ParenRule, j.Names p.name := by
  simp only [ofJson?, exists_ofParts?_eq_some_iff, Option.mem_def,
    Json.lookup_eq_some_iff_mem distinct]

theorem exists_ofJson?_iff_accepted {v : Json} (distinct : v.DistinctNames) :
    (∃ s, ofJson? v = some s) ↔ Accepted v := by
  constructor
  · rintro ⟨s, found⟩
    unfold ofJson? at found
    split at found
    · obtain ⟨keywords, parens⟩ := (exists_ofJson?_object_iff distinct).1 ⟨s, found⟩
      exact .object keywords parens
    · exact .neither
    · next i =>
      obtain ⟨keywords, -⟩ := exists_ofParts?_eq_some_iff.1 ⟨s, found⟩
      obtain ⟨k, hk⟩ := keywords i rfl
      exact .first hk
    · next i j =>
      obtain ⟨keywords, parens⟩ := exists_ofParts?_eq_some_iff.1 ⟨s, found⟩
      obtain ⟨k, hk⟩ := keywords i rfl
      obtain ⟨p, hp⟩ := parens j rfl
      exact .both hk hp
    · cases found
  · intro accepted
    cases accepted with
    | object keywords parens => exact (exists_ofJson?_object_iff distinct).2 ⟨keywords, parens⟩
    | neither => exact ⟨usual, rfl⟩
    | first keywords =>
      apply exists_ofParts?_eq_some_iff.2
      exact ⟨fun _ given => Option.some.inj given ▸ ⟨_, keywords⟩, nofun⟩
    | both keywords parens =>
      apply exists_ofParts?_eq_some_iff.2
      exact ⟨fun _ given => Option.some.inj given ▸ ⟨_, keywords⟩,
        fun _ given => Option.some.inj given ▸ ⟨_, parens⟩⟩

/-- What an object says about each choice is said by the value of the field of its name. -/
theorem ofJson?_object_eq_some_iff {fields : List (String × Json)} {s : Style} :
    ofJson? (.object fields) = some s ↔
      Chosen KeywordCase.name usual.keywords (fields.lookup keywordsField) s.keywords ∧
        Chosen ParenRule.name usual.parens (fields.lookup parensField) s.parens :=
  ofParts?_eq_some_iff

/-- The fields of one list that a style has are those of the other list. -/
def SameChoices (fields fields' : List (String × Json)) : Prop :=
  ∀ f : String × Json, f.1 ∈ fieldNames → (f ∈ fields ↔ f ∈ fields')

/-- Fields of other names and the order of the fields play no part. -/
theorem ofJson?_object_eq_of_sameChoices {fields fields' : List (String × Json)}
    (distinct : (Json.object fields).DistinctNames) (distinct' : (Json.object fields').DistinctNames)
    (same : SameChoices fields fields') : ofJson? (.object fields) = ofJson? (.object fields') := by
  have lookup : ∀ name ∈ fieldNames, fields.lookup name = fields'.lookup name := by
    intro name known
    apply Option.ext
    intro j
    rw [Json.lookup_eq_some_iff_mem distinct, Json.lookup_eq_some_iff_mem distinct']
    exact same (name, j) known
  rw [ofJson?, ofJson?, lookup keywordsField (by decide), lookup parensField (by decide)]

/-- A list is read as the object in which its values stand under the names of the fields. -/
theorem ofJson?_array {items : List Json} (short : items.length ≤ 2) :
    ofJson? (.array items) = ofJson? (.object (fieldNames.zip items)) := by
  match items, short with
  | [], _ => rfl
  | [k], _ => rfl
  | [k, p], _ => rfl

/-! ## Writing and reading back -/

theorem ofJson?_toJson (s : Style) : ofJson? s.toJson = some s := by
  obtain ⟨k, p⟩ := s
  cases k <;> cases p <;> rfl

theorem written_toJson (s : Style) : s.toJson.Written := by
  apply Json.Written.object
  simp [Json.Written.string]

theorem read?_text_toJson (s : Style) : (Json.read? s.toJson.text).bind ofJson? = some s := by
  rw [Json.read?_text (written_toJson s), Option.bind_some, ofJson?_toJson]

/-- A value is read as a style exactly when it has the format of one. Of the fields of an object only
the two of a style matter, a list stands for the object with its values in these fields, a choice that
is not made is the usual one, and a style that is written is read back. -/
theorem exists_ofJson?_iff_and_ofJson?_toJson :
    (∀ v : Json, v.DistinctNames → ((∃ s, ofJson? v = some s) ↔ Accepted v)) ∧
      (∀ fields fields', (Json.object fields).DistinctNames → (Json.object fields').DistinctNames →
        SameChoices fields fields' → ofJson? (.object fields) = ofJson? (.object fields')) ∧
      (∀ items : List Json, items.length ≤ 2 →
        ofJson? (.array items) = ofJson? (.object (fieldNames.zip items))) ∧
      (∀ fields s, ofJson? (.object fields) = some s ↔
        Chosen KeywordCase.name usual.keywords (fields.lookup keywordsField) s.keywords ∧
          Chosen ParenRule.name usual.parens (fields.lookup parensField) s.parens) ∧
      ∀ s : Style, ofJson? s.toJson = some s ∧ (Json.read? s.toJson.text).bind ofJson? = some s := by
  refine ⟨fun v => exists_ofJson?_iff_accepted, ?_, fun items => ofJson?_array,
    fun fields s => ofJson?_object_eq_some_iff, fun s => ⟨ofJson?_toJson s, read?_text_toJson s⟩⟩
  intro fields fields' distinct distinct' same
  exact ofJson?_object_eq_of_sameChoices distinct distinct' same

/-- An object with a field that is passed over is read as the list of its two choices, in whichever way
these are named. A choice cannot be `null`, and a third value is too much. -/
theorem exists_ofJson?_iff_and_ofJson?_toJson_unknown :
    let always := Json.object [("Always", .null)]
    let fields := [("indent", Json.number "2"), (parensField, always),
      (keywordsField, Json.string "Lower")]
    let nothing := Json.object [(keywordsField, .null)]
    let three := Json.array [.string "Lower", always, .string "Upper"]
    (Json.object fields).DistinctNames ∧ ofJson? (.object fields) = some ⟨.lower, .always⟩ ∧
      ofJson? (.object fields) = ofJson? (.array [.string "Lower", always]) ∧
      nothing.DistinctNames ∧ ¬ (∃ s, ofJson? nothing = some s) ∧
      three.DistinctNames ∧ ¬ ∃ s, ofJson? three = some s := by
  intro always fields nothing three
  obtain ⟨accepts, ignores, lists, chosen, -⟩ := exists_ofJson?_iff_and_ofJson?_toJson
  have distinct : (Json.object fields).DistinctNames :=
    show ["indent", parensField, keywordsField].Nodup by decide
  have known : (Json.object (fieldNames.zip [.string "Lower", always])).DistinctNames :=
    show [keywordsField, parensField].Nodup by decide
  have single : nothing.DistinctNames := show [keywordsField].Nodup by decide
  have same : SameChoices fields (fieldNames.zip [.string "Lower", always]) := by
    intro f mem
    have other : f ≠ ("indent", .number "2") := by
      rintro rfl
      exact absurd mem (by decide)
    show f ∈ [("indent", .number "2"), (parensField, always), (keywordsField, .string "Lower")] ↔
      f ∈ [(keywordsField, .string "Lower"), (parensField, always)]
    simp only [List.mem_cons, List.not_mem_nil, other, false_or, or_comm]
  refine ⟨distinct, ?_, ?_, single, ?_, trivial, ?_⟩
  · rw [chosen]
    constructor
    · exact ⟨fun j given => Option.some.inj given ▸ .plain "Lower", nofun⟩
    · exact ⟨fun j given => Option.some.inj given ▸ .field "Always", nofun⟩
  · rw [lists _ (by decide)]
    exact ignores _ _ distinct known same
  · rw [accepts nothing single]
    intro accepted
    obtain ⟨keywords, -⟩ := show Accepted (.object [(keywordsField, .null)]) from accepted
    obtain ⟨k, hk⟩ := keywords .null List.mem_cons_self
    cases hk
  · rw [accepts three trivial]
    exact fun accepted => nomatch show Accepted (.array [_, _, _]) from accepted

end Style

end QueryLogic
