import QueryLogic.Proofs.Cut
import QueryLogic.Proofs.Json.Grammar
/-!
From a JSON text to its tokens: marks, and whole strings, numbers and names of constants. Blanks
between them are passed over, and a word ends at a blank or a mark.

What is proved:
  1. `readString_stringText`: a string is read in whatever way its characters are written.
  2. `Scans.of_spells`: every text of a value is cut into the tokens of that value.
-/
namespace QueryLogic.Json

/-! ## Tokens -/

inductive Token
  | scalar (j : Json)
  | comma
  | colon
  | openArray
  | closeArray
  | openObject
  | closeObject
  deriving Repr

def marks : List (Char × Token) :=
  [(',', .comma), (':', .colon), ('[', .openArray), (']', .closeArray), ('\x7b', .openObject),
    ('\x7d', .closeObject)]

/-- The characters that end a word. -/
def separators : List Char := quote :: (blanks ++ marks.map Prod.fst)

def inWord (c : Char) : Bool := decide (c ∉ separators)

def word? (w : List Char) : Option Json :=
  if isNumber w then some (.number (String.ofList w))
  else if w = ['n', 'u', 'l', 'l'] then some .null
  else if w = ['t', 'r', 'u', 'e'] then some (.bool true)
  else if w = ['f', 'a', 'l', 's', 'e'] then some (.bool false)
  else none

/-- The character with the number that some hexadecimal digits stand for. -/
def hexChar? (ds : List Char) : Option Char :=
  (hexNumber? ds).bind fun n => if n.isValidChar then some (Char.ofNat n) else none

/-- One more character in front of a string that has been read. -/
def inFront (c : Char) (read : Option (List Char × List Char)) : Option (List Char × List Char) :=
  read.map fun p => (c :: p.1, p.2)

/-- Where a string is read: at a character, behind a backslash, or behind some of the four digits of
a character. -/
inductive Spot
  | character
  | escape
  | digits (ds : List Char)
  deriving DecidableEq, Repr

/-- Reads a string behind its opening quote: its characters, and what follows the closing quote. -/
def readString : Spot → List Char → Option (List Char × List Char)
  | _, [] => none
  | .character, c :: cs =>
    if c = quote then some ([], cs)
    else if c = backslash then readString .escape cs
    else if c.toNat < 32 then none
    else inFront c (readString .character cs)
  | .escape, c :: cs =>
    if c = 'u' then readString (.digits []) cs
    else (escapes.lookup c).bind fun x => inFront x (readString .character cs)
  | .digits ds, c :: cs =>
    if ds.length < 3 then readString (.digits (ds ++ [c])) cs
    else (hexChar? (ds ++ [c])).bind fun x => inFront x (readString .character cs)

theorem exists_of_inFront {c : Char} {read : Option (List Char × List Char)} {s rest : List Char}
    (h : inFront c read = some (s, rest)) : ∃ t, read = some (t, rest) := by
  obtain ⟨⟨t, after⟩, found, same⟩ := Option.map_eq_some_iff.1 h
  obtain rfl : after = rest := (Prod.mk.inj same).2
  exact ⟨t, found⟩

theorem length_lt_of_readString {spot : Spot} {cs s rest : List Char}
    (h : readString spot cs = some (s, rest)) : rest.length < cs.length := by
  induction cs generalizing spot s with
  | nil => cases spot <;> cases h
  | cons c cs ih =>
    have later : ∀ {spot : Spot} {s : List Char}, readString spot cs = some (s, rest) →
        rest.length < (c :: cs).length := fun h => Nat.lt_succ_of_lt (ih h)
    have next : ∀ {x : Char}, inFront x (readString .character cs) = some (s, rest) →
        rest.length < (c :: cs).length := by
      intro x h
      obtain ⟨t, inner⟩ := exists_of_inFront h
      exact later inner
    cases spot with
    | character =>
      rw [readString] at h
      split at h
      · cases h
        exact Nat.lt_succ_self _
      split at h
      · exact later h
      split at h
      · cases h
      · exact next h
    | escape =>
      rw [readString] at h
      split at h
      · exact later h
      · obtain ⟨x, _, inner⟩ := Option.bind_eq_some_iff.1 h
        exact next inner
    | digits ds =>
      rw [readString] at h
      split at h
      · exact later h
      · obtain ⟨x, _, inner⟩ := Option.bind_eq_some_iff.1 h
        exact next inner

/-- Cuts a text into its tokens, unless a word or a string in it is malformed. -/
def scan : List Char → Option (List Token)
  | [] => some []
  | c :: cs =>
    if c ∈ blanks then scan cs
    else if c = quote then
      match _ : readString .character cs with
      | some (s, rest) => (scan rest).map (.scalar (.string (String.ofList s)) :: ·)
      | none => none
    else
      match marks.lookup c with
      | some t => (scan cs).map (t :: ·)
      | none =>
        match word? (c :: cs.takeWhile inWord) with
        | some j => (scan (cs.dropWhile inWord)).map (.scalar j :: ·)
        | none => none
termination_by cs => cs.length
decreasing_by
  · exact Nat.lt_succ_self _
  · exact Nat.lt_succ_of_lt (length_lt_of_readString ‹_›)
  · exact Nat.lt_succ_self _
  · exact Nat.lt_succ_of_le (List.dropWhile_sublist inWord).length_le

/-! ## Strings in any spelling -/

theorem hexChar?_of_hexNumber? {ds : List Char} {c : Char} (h : hexNumber? ds = some c.toNat) :
    hexChar? ds = some c := by
  have valid : c.toNat.isValidChar := c.valid
  rw [hexChar?, h, Option.bind_some, if_pos valid, Char.ofNat_toNat]

theorem readString_charText {c : Char} {ts : List Char} (h : CharText c ts) (rest : List Char) :
    readString .character (ts ++ rest) = inFront c (readString .character rest) := by
  have begun : ∀ ds, readString .character (backslash :: ds) = readString .escape ds := by
    intro ds
    rw [readString, if_neg (by decide), if_pos rfl]
  cases h with
  | self printable noQuote noBackslash =>
    have noControl : ¬ c.toNat < 32 := Nat.not_lt_of_le printable
    rw [List.singleton_append, readString, if_neg noQuote, if_neg noBackslash, if_neg noControl]
  | @letter d known =>
    have noNumber : d ≠ 'u' := by
      have noLetter : escapes.lookup 'u' = none := by decide
      rintro rfl
      rw [noLetter] at known
      cases known
    show readString .character (backslash :: d :: rest) = _
    rw [begun, readString, if_neg noNumber, known, Option.bind_some]
  | @number ds length known =>
    match ds, length with
    | [h₁, h₂, h₃, h₄], _ =>
      show readString .character (backslash :: 'u' :: h₁ :: h₂ :: h₃ :: h₄ :: rest) = _
      have three : ¬ [h₁, h₂, h₃].length < 3 := Nat.lt_irrefl 3
      have last : hexChar? ([h₁, h₂, h₃] ++ [h₄]) = some c := hexChar?_of_hexNumber? known
      calc readString .character (backslash :: 'u' :: h₁ :: h₂ :: h₃ :: h₄ :: rest)
          = readString (.digits [h₁, h₂, h₃]) (h₄ :: rest) := by rw [begun]; rfl
        _ = inFront c (readString .character rest) := by
          rw [readString, if_neg three, last, Option.bind_some]

theorem readString_stringText {cs ts : List Char} (h : StringText cs ts) (rest : List Char) :
    readString .character (ts ++ quote :: rest) = some (cs, rest) := by
  induction h with
  | nil => rw [List.nil_append, readString, if_pos rfl]
  | cons char _ ih =>
    rw [List.append_assoc, readString_charText char, ih]
    rfl

/-! ## Parts of a text -/

/-- Whether a text is empty or goes on with a character that ends a word. -/
def Boundary (rest : List Char) : Prop := ∀ c ∈ rest.head?, inWord c = false

theorem Boundary.nil : Boundary [] := fun _ h => nomatch h

theorem Boundary.cons {c : Char} (h : inWord c = false) (cs : List Char) : Boundary (c :: cs) := by
  intro d hd
  obtain rfl : c = d := Option.some.inj hd
  exact h

theorem inWord_eq_false_iff {c : Char} : inWord c = false ↔ c ∈ separators := by simp [inWord]

theorem Blank.boundary {us rest : List Char} (blank : Blank us) (h : Boundary rest) :
    Boundary (us ++ rest) := by
  cases us with
  | nil => exact h
  | cons c us =>
    apply Boundary.cons
    apply inWord_eq_false_iff.2
    exact List.mem_cons_of_mem quote (List.mem_append_left _ (blank c List.mem_cons_self))

theorem mark_spec {c : Char} {t : Token} (h : marks.lookup c = some t) :
    c ∉ blanks ∧ c ≠ quote ∧ inWord c = false := by
  have unmarked : (quote :: blanks).all (fun d => (marks.lookup d).isNone) = true := by decide
  have free : c ∉ quote :: blanks := by
    intro mem
    have missing := List.all_eq_true.1 unmarked c mem
    rw [h] at missing
    cases missing
  refine ⟨fun mem => free (List.mem_cons_of_mem quote mem), ?_, ?_⟩
  · rintro rfl
    exact free List.mem_cons_self
  · apply Decidable.byContradiction
    intro inside
    have missing : marks.lookup c = none := by
      apply List.lookup_eq_none_iff.2
      intro p hp
      apply bne_iff_ne.2
      rintro rfl
      apply inside
      apply inWord_eq_false_iff.2
      exact List.mem_cons_of_mem quote (List.mem_append_right _ (List.mem_map_of_mem hp))
    rw [missing] at h
    cases h

theorem scan_nil : scan [] = some [] := by rw [scan]

theorem scan_blank {us : List Char} (h : Blank us) (cs : List Char) : scan (us ++ cs) = scan cs := by
  induction us with
  | nil => rfl
  | cons c us ih =>
    rw [List.cons_append, scan, if_pos (h c List.mem_cons_self)]
    exact ih fun d hd => h d (List.mem_cons_of_mem c hd)

theorem scan_mark {c : Char} {t : Token} (h : marks.lookup c = some t) (cs : List Char) :
    scan (c :: cs) = (scan cs).map (t :: ·) := by
  obtain ⟨noBlank, noQuote, -⟩ := mark_spec h
  rw [scan, if_neg noBlank, if_neg noQuote]
  simp only [h]

/-- Whether a part of a text, wherever it stands before a boundary, is cut into some tokens. -/
def Scans (text : List Char) (ts : List Token) : Prop :=
  ∀ rest, Boundary rest → scan (text ++ rest) = (scan rest).map (ts ++ ·)

namespace Scans

variable {u v : List Char} {us vs : List Token}

theorem whole (h : Scans u us) : scan u = some us := by
  have only := h [] Boundary.nil
  rwa [scan_nil, Option.map_some, List.append_nil, List.append_nil] at only

theorem blank (h : Blank u) : Scans u [] := by
  intro rest _
  rw [scan_blank h]
  simp

theorem padded {w : List Char} (before : Blank u) (h : Scans v vs) (after : Blank w) :
    Scans (u ++ (v ++ w)) vs := by
  intro rest boundary
  rw [List.append_assoc, scan_blank before, List.append_assoc, h _ (after.boundary boundary),
    scan_blank after]

theorem separated {c : Char} {t : Token} (mark : marks.lookup c = some t) (hu : Scans u us)
    (hv : Scans v vs) : Scans (u ++ c :: v) (us ++ t :: vs) := by
  intro rest boundary
  obtain ⟨-, -, ends⟩ := mark_spec mark
  calc scan ((u ++ c :: v) ++ rest)
      = scan (u ++ c :: (v ++ rest)) := by rw [List.append_assoc, List.cons_append]
    _ = (scan (v ++ rest)).map (us ++ t :: ·) := by
      rw [hu _ (Boundary.cons ends _), scan_mark mark, Option.map_map]
      rfl
    _ = (scan rest).map ((us ++ t :: vs) ++ ·) := by
      rw [hv rest boundary, Option.map_map]
      simp only [Function.comp_def, List.append_assoc, List.cons_append]

theorem enclosed {c d : Char} {t t' : Token} (mark : marks.lookup c = some t)
    (mark' : marks.lookup d = some t') (h : Scans u us) :
    Scans (c :: (u ++ [d])) (t :: (us ++ [t'])) := by
  intro rest _
  obtain ⟨-, -, ends⟩ := mark_spec mark'
  calc scan (c :: (u ++ [d]) ++ rest)
      = (scan (u ++ d :: rest)).map (t :: ·) := by
        rw [List.cons_append, scan_mark mark, List.append_assoc]
        rfl
    _ = (scan rest).map (t :: (us ++ [t']) ++ ·) := by
      rw [h _ (Boundary.cons ends rest), scan_mark mark', Option.map_map, Option.map_map]
      simp [Function.comp_def]

theorem string {s : String} {ts : List Char} (h : StringText s.toList ts) :
    Scans (quote :: (ts ++ [quote])) [.scalar (.string s)] := by
  intro rest _
  have text : quote :: (ts ++ [quote]) ++ rest = quote :: (ts ++ quote :: rest) := by simp
  have inside := readString_stringText h rest
  rw [text, scan, if_neg (by decide), if_pos rfl]
  split
  · next cs after found =>
    rw [inside] at found
    cases found
    rw [String.ofList_toList]
    rfl
  · next missing =>
    rw [inside] at missing
    cases missing

theorem word {w : List Char} {j : Json} (nonempty : w ≠ []) (chars : w.all inWord = true)
    (value : word? w = some j) : Scans w [.scalar j] := by
  intro rest boundary
  obtain ⟨c, cs, rfl⟩ := List.exists_cons_of_ne_nil nonempty
  obtain ⟨front, inside⟩ := List.forall_mem_cons.1 (List.all_eq_true.1 chars)
  have free : c ∉ separators := of_decide_eq_true front
  have noQuote : c ≠ quote := fun same => free (same ▸ List.mem_cons_self)
  have noBlank : c ∉ blanks :=
    fun mem => free (List.mem_cons_of_mem quote (List.mem_append_left _ mem))
  have noMark : marks.lookup c = none := by
    apply Option.eq_none_iff_forall_ne_some.2
    intro t mark
    obtain ⟨-, -, ends⟩ := mark_spec mark
    exact free (inWord_eq_false_iff.1 ends)
  -- the word reaches to the end of the part and no further
  have taken := takeWhile_append_of_ends inside boundary
  have left := dropWhile_append_of_ends inside boundary
  rw [List.cons_append, scan, if_neg noBlank, if_neg noQuote]
  simp only [noMark, taken, left, value]
  rfl

end Scans

/-! ### Numbers -/

/-- The characters of a number besides its digits. -/
def numberSymbols : List Char := ['-', '+', '.', 'e', 'E']

theorem NumberState.isDigit_or_mem_of_next {s t : NumberState} {c : Char}
    (h : s.next c = some t) : c.isDigit = true ∨ c ∈ numberSymbols := by
  by_cases digit : c.isDigit = true
  · exact .inl digit
  · right
    rw [next, if_neg digit] at h
    cases s <;> simp only [symbol?] at h <;> grind [numberSymbols]

theorem isDigit_or_mem_of_foldlM_next {s t : NumberState} {cs : List Char}
    (h : cs.foldlM NumberState.next s = some t) :
    ∀ c ∈ cs, c.isDigit = true ∨ c ∈ numberSymbols := by
  induction cs generalizing s with
  | nil => exact fun _ hc => nomatch hc
  | cons d cs ih =>
    rw [List.foldlM_cons] at h
    obtain ⟨r, first, rest⟩ := Option.bind_eq_some_iff.1 h
    exact List.forall_mem_cons.2 ⟨NumberState.isDigit_or_mem_of_next first, ih rest⟩

theorem all_inWord_of_isNumber {cs : List Char} (h : isNumber cs = true) :
    cs.all inWord = true := by
  apply List.all_eq_true.2
  intro c hc
  obtain ⟨t, reached, -⟩ := (Option.any_eq_true _ _).1 h
  rcases isDigit_or_mem_of_foldlM_next reached c hc with digit | symbol
  · exact decide_eq_true (not_mem_of_isDigit (by decide) digit)
  · have inside : numberSymbols.all inWord = true := by decide
    exact List.all_eq_true.1 inside c symbol

theorem Scans.number {t : String} (h : isNumber t.toList = true) :
    Scans t.toList [.scalar (.number t)] := by
  apply Scans.word
  · intro empty
    rw [empty] at h
    cases h
  · exact all_inWord_of_isNumber h
  · rw [word?, if_pos h, String.ofList_toList]

/-! ### Values -/

mutual

/-- The tokens in which a value is written. -/
def tokens : Json → List Token
  | null => [.scalar null]
  | bool b => [.scalar (bool b)]
  | number t => [.scalar (number t)]
  | string s => [.scalar (string s)]
  | array items => .openArray :: (itemTokens items ++ [.closeArray])
  | object fields => .openObject :: (fieldTokens fields ++ [.closeObject])

def itemTokens : List Json → List Token
  | [] => []
  | [j] => tokens j
  | j :: k :: js => tokens j ++ .comma :: itemTokens (k :: js)

def fieldTokens : List (String × Json) → List Token
  | [] => []
  | [(name, j)] => .scalar (string name) :: .colon :: tokens j
  | (name, j) :: f :: fs =>
    .scalar (string name) :: .colon :: (tokens j ++ .comma :: fieldTokens (f :: fs))

end

def Part.tokens : Part → List Token
  | .value j => Json.tokens j
  | .items js => itemTokens js
  | .fields fs => fieldTokens fs

theorem Scans.of_spells {p : Part} {ts : List Char} (h : Spells p ts) : Scans ts p.tokens := by
  induction h with
  | null => exact Scans.word (List.cons_ne_nil _ _) (by decide) rfl
  | yes => exact Scans.word (List.cons_ne_nil _ _) (by decide) rfl
  | no => exact Scans.word (List.cons_ne_nil _ _) (by decide) rfl
  | number h => exact Scans.number h
  | string h => exact Scans.string h
  | emptyArray h => exact (Scans.blank h).enclosed rfl rfl
  | array _ ih => exact ih.enclosed rfl rfl
  | emptyObject h => exact (Scans.blank h).enclosed rfl rfl
  | object _ ih => exact ih.enclosed rfl rfl
  | padded before _ after ih => exact ih.padded before after
  | item _ ih => exact ih
  | nextItem _ _ first rest => exact first.separated rfl rest
  | field _ _ name value => exact name.separated rfl value
  | nextField _ _ _ name value rest =>
    exact name.separated rfl (value.separated rfl rest)

end QueryLogic.Json
