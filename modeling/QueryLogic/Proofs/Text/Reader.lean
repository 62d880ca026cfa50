import QueryLogic.Proofs.Text.Grammar
/-!
A reader of written conditions. It takes one token after the other and keeps the operands and
operators that are still open on a stack. A connective first closes what binds at least as tightly
to its left and then waits for its right operand; a closing parenthesis closes everything up to the
one that opened. Every token is looked at once, and the only recursion besides is on the stack.

What is proved:
  1. `run_phrase`: the reader goes through the tokens of a phrase, whatever is open around it, and
     is then ready to close the tree of the phrase.
  2. `Reads.step`: after every token, what has been read is a phrase behind the tokens of what is
     open.
  3. `parse?_eq_some_iff`: the reader accepts exactly the phrases of the grammar, and no tokens are
     phrases of two trees.
-/
namespace QueryLogic

/-- What is open while its last operand is read. -/
inductive Frame
  | group
  | not
  | binary (c : Connective) (left : Expr)
  deriving DecidableEq, Repr

/-- Where the reader stands: before an operand, or behind one; innermost frames first. -/
inductive Reading
  | expecting (open' : List Frame)
  | holding (e : Expr) (open' : List Frame)
  deriving DecidableEq, Repr

namespace Grammar

variable (g : Grammar)

/-- Ends all negations and all connectives of at least a power that are open up to a parenthesis. -/
def close (k : Nat) (e : Expr) : List Frame → Expr × List Frame
  | [] => (e, [])
  | .group :: fs => (e, .group :: fs)
  | .not :: fs => close k (.not none e) fs
  | .binary c l :: fs =>
    if k ≤ g.power c then close k (.binary none c l e) fs else (e, .binary c l :: fs)

def step : Reading → Token → Option Reading
  | .expecting fs, .literal v => some (.holding (.literal none v) fs)
  | .expecting fs, .column n => some (.holding (.column none n) fs)
  | .expecting fs, .not => some (.expecting (.not :: fs))
  | .expecting fs, .opening => some (.expecting (.group :: fs))
  | .holding e fs, .connective c =>
    let (l, fs) := g.close (g.level c .left) e fs
    some (.expecting (.binary c l :: fs))
  | .holding e fs, .closing =>
    match g.close 0 e fs with
    | (x, .group :: fs) => some (.holding x fs)
    | _ => none
  | _, _ => none

def run (r : Reading) (ts : List Token) : Option Reading := ts.foldlM g.step r

/-- The tree of some tokens, if they are a phrase from the first to the last. -/
def parse? (ts : List Token) : Option Expr :=
  match g.run (.expecting []) ts with
  | some (.holding e fs) =>
    match g.close 0 e fs with
    | (x, []) => some x
    | _ => none
  | _ => none

variable {g}

theorem run_append {r s : Reading} {ts : List Token} (h : g.run r ts = some s) (us : List Token) :
    g.run r (ts ++ us) = g.run s us := by
  rw [run, List.foldlM_append, ← run, h]
  rfl

theorem run_cons {r s : Reading} {t : Token} (h : g.step r t = some s) (ts : List Token) :
    g.run r (t :: ts) = g.run s ts := by
  rw [run, List.foldlM_cons, h]
  rfl

/-! ## Every phrase is read -/

/-- No connective of at least a power closes anything that is open. -/
def Holds (g : Grammar) (k : Nat) (fs : List Frame) : Prop :=
  ∀ c, k ≤ g.power c → ∀ e, g.close (g.level c .left) e fs = (e, fs)

theorem holds_nil (k : Nat) : g.Holds k [] := fun _ _ _ => rfl

theorem holds_group (k : Nat) (fs : List Frame) : g.Holds k (.group :: fs) := fun _ _ _ => rfl

theorem holds_not (fs : List Frame) : g.Holds g.tight (.not :: fs) := by
  intro c hc
  -- no connective is as powerful as that
  have weaker := g.power_lt_tight c
  omega

theorem holds_binary (d : Connective) (l : Expr) (fs : List Frame) :
    g.Holds (g.level d .right) (.binary d l :: fs) := by
  intro c hc e
  have weaker := (g.power_lt_level_left_iff c d).2 hc
  rw [close, if_neg (Nat.not_le_of_lt weaker)]

/-- Behind a phrase the reader holds an operand; once the connectives within the phrase are closed,
it holds the tree of the phrase. -/
theorem run_phrase {k : Nat} {ts : List Token} {e : Expr} (h : Phrase g k ts e) :
    ∀ fs, g.Holds k fs → ∃ x gs, g.run (.expecting fs) ts = some (.holding x gs) ∧
      ∀ n ≤ k, n ≤ g.tight → g.close n x gs = g.close n e fs := by
  induction h with
  | literal k v =>
    intro fs _
    exact ⟨_, fs, rfl, fun _ _ _ => rfl⟩
  | column k n =>
    intro fs _
    exact ⟨_, fs, rfl, fun _ _ _ => rfl⟩
  | group k h ih =>
    intro fs _
    obtain ⟨x, gs, inside, closed⟩ := ih (.group :: fs) (holds_group 0 fs)
    -- the closing parenthesis closes the phrase inside and takes the frame away
    refine ⟨_, fs, ?_, fun _ _ _ => rfl⟩
    rw [run_cons rfl, run_append inside, run_cons (s := .holding _ fs)]
    · rfl
    · rw [step, closed 0 (Nat.le_refl 0) (Nat.zero_le _)]
      rfl
  | not k h ih =>
    intro fs _
    obtain ⟨x, gs, inside, closed⟩ := ih (.not :: fs) (holds_not fs)
    exact ⟨x, gs, inside, fun n _ tight => closed n tight tight⟩
  | @binary k c ts us l r hc _ _ ihl ihr =>
    intro fs hfs
    have keeps : g.Holds (g.level c .left) fs := by
      intro d hd
      apply hfs
      have least := g.power_le_level c .left
      omega
    obtain ⟨x, gs, left, closedLeft⟩ := ihl fs keeps
    obtain ⟨y, hs, right, closedRight⟩ := ihr (.binary c l :: fs) (holds_binary c l fs)
    have between : g.step (.holding x gs) (.connective c) = some (.expecting (.binary c l :: fs)) := by
      rw [step, closedLeft _ (Nat.le_refl _) (g.level_le_tight c .left), hfs c hc]
    refine ⟨y, hs, ?_, fun n hn tight => ?_⟩
    · rw [run_append left, run_cons between, right]
    · have least := g.power_le_level c .right
      have reached : n ≤ g.power c := by omega
      have inRight : n ≤ g.level c .right := by omega
      rw [closedRight n inRight tight, close, if_pos reached]

theorem parse?_of_phrase {ts : List Token} {e : Expr} (h : Phrase g 0 ts e) :
    g.parse? ts = some e := by
  obtain ⟨x, gs, whole, closed⟩ := run_phrase h [] (holds_nil 0)
  rw [parse?, whole]
  simp only [closed 0 (Nat.le_refl 0) (Nat.zero_le _), close]

/-! ## Only phrases are read -/

/-- The tokens of what is open, and the level of the phrase that it waits for. -/
inductive Context (g : Grammar) : List Frame → List Token → Nat → Prop
  | top : Context g [] [] 0
  | group {fs : List Frame} {ts : List Token} {k : Nat} :
    Context g fs ts k → Context g (.group :: fs) (ts ++ [.opening]) 0
  | not {fs : List Frame} {ts : List Token} {k : Nat} :
    Context g fs ts k → Context g (.not :: fs) (ts ++ [.not]) g.tight
  | binary {fs : List Frame} {ts us : List Token} {k : Nat} {c : Connective} {l : Expr} :
    Context g fs ts k → k ≤ g.power c → Phrase g (g.level c .left) us l →
    Context g (.binary c l :: fs) (ts ++ us ++ [.connective c]) (g.level c .right)

/-- Closing turns a phrase behind what is open into a larger phrase behind less of it. What is still
open then waits for any phrase, or belongs to a connective of less power. -/
theorem close_spec (n : Nat) {fs : List Frame} {us vs : List Token} {k : Nat} {e : Expr}
    (outer : Context g fs us k) (inner : Phrase g (max k n) vs e) :
    ∃ us' vs' k', us' ++ vs' = us ++ vs ∧ Context g (g.close n e fs).2 us' k' ∧
      Phrase g (max k' n) vs' (g.close n e fs).1 ∧
      (k' = 0 ∨ ∃ d, g.power d < n ∧ k' = g.level d .right) := by
  induction outer generalizing vs e with
  | top => exact ⟨[], vs, 0, rfl, .top, inner, .inl rfl⟩
  | @group fs ts k outer _ =>
    have stays : g.close n e (.group :: fs) = (e, .group :: fs) := rfl
    rw [stays]
    exact ⟨ts ++ [.opening], vs, 0, rfl, .group outer, inner, .inl rfl⟩
  | @not fs ts k outer ih =>
    -- the negation of a tight phrase is a phrase at whatever level the outer frames wait for
    obtain ⟨us', vs', k', same, rest⟩ := ih (.not (max k n) (inner.mono (Nat.le_max_left _ n)))
    refine ⟨us', vs', k', ?_, rest⟩
    rw [same, List.append_assoc]
    rfl
  | @binary fs ts us k c l outer hk left ih =>
    rw [close]
    by_cases reached : n ≤ g.power c
    · have right : Phrase g (g.level c .right) vs e := inner.mono (Nat.le_max_left _ n)
      obtain ⟨us', vs', k', same, rest⟩ := ih (.binary (Nat.max_le.2 ⟨hk, reached⟩) left right)
      rw [if_pos reached]
      refine ⟨us', vs', k', ?_, rest⟩
      simp [same]
    · rw [if_neg reached]
      have weaker : g.power c < n := Nat.lt_of_not_le reached
      exact ⟨_, vs, _, rfl, .binary outer hk left, inner, .inr ⟨c, weaker, rfl⟩⟩

/-- Where the reader stands behind some tokens: they are those of what is open and, behind an
operand, those of a phrase that fits everywhere. -/
def Reads (g : Grammar) (ts : List Token) : Reading → Prop
  | .expecting fs => ∃ k, Context g fs ts k
  | .holding e fs =>
    ∃ us vs k, ts = us ++ vs ∧ Context g fs us k ∧ ∀ m, Phrase g m vs e

theorem Reads.step {ts : List Token} {r s : Reading} {t : Token} (h : g.Reads ts r)
    (taken : g.step r t = some s) : g.Reads (ts ++ [t]) s := by
  cases r with
  | expecting fs =>
    obtain ⟨k, outer⟩ := h
    cases t with
    | literal v =>
      cases taken
      exact ⟨ts, _, k, rfl, outer, fun m => .literal m v⟩
    | column n =>
      cases taken
      exact ⟨ts, _, k, rfl, outer, fun m => .column m n⟩
    | not =>
      cases taken
      exact ⟨_, .not outer⟩
    | opening =>
      cases taken
      exact ⟨_, .group outer⟩
    | connective c => cases taken
    | closing => cases taken
  | holding e fs =>
    obtain ⟨us, vs, k, rfl, outer, inner⟩ := h
    cases t with
    | connective c =>
      cases taken
      obtain ⟨us', vs', k', same, outer', inner', free⟩ :=
        close_spec (g.level c .left) outer (inner (max k (g.level c .left)))
      -- whatever is still open leaves its last operand to this connective
      have fits : k' ≤ g.power c := by
        rcases free with rfl | ⟨d, weaker, rfl⟩
        · omega
        · exact (g.power_lt_level_left_iff c d).1 weaker
      rw [← same]
      exact ⟨_, .binary outer' fits (inner'.mono (Nat.le_max_right k' _))⟩
    | closing =>
      obtain ⟨us', vs', k', same, outer', inner', _⟩ := close_spec 0 outer (inner (max k 0))
      rw [Grammar.step] at taken
      split at taken
      · next x gs closed =>
        cases taken
        rw [closed] at outer' inner'
        cases outer' with
        | group below =>
          refine ⟨_, .opening :: (vs' ++ [.closing]), _, ?_, below, fun m => ?_⟩
          · rw [← same]
            simp
          · exact .group m (inner'.mono (Nat.zero_le _))
      · cases taken
    | literal v => cases taken
    | column n => cases taken
    | not => cases taken
    | opening => cases taken

/-- What a step keeps, a run keeps. -/
theorem Reads.run {us ts : List Token} {r s : Reading} (h : g.Reads us r)
    (taken : g.run r ts = some s) : g.Reads (us ++ ts) s := by
  induction ts generalizing us r with
  | nil =>
    cases taken
    rwa [List.append_nil]
  | cons t ts ih =>
    rw [Grammar.run, List.foldlM_cons] at taken
    obtain ⟨q, first, rest⟩ := Option.bind_eq_some_iff.1 taken
    have whole := ih (h.step first) rest
    rwa [List.append_assoc] at whole

theorem phrase_of_parse? {ts : List Token} {e : Expr} (h : g.parse? ts = some e) :
    Phrase g 0 ts e := by
  rw [parse?] at h
  split at h
  · next x fs whole =>
    have start : g.Reads [] (.expecting []) := ⟨0, .top⟩
    obtain ⟨us, vs, k, split, outer, inner⟩ := start.run whole
    rw [List.nil_append] at split
    obtain ⟨us', vs', k', same, outer', inner', _⟩ := close_spec 0 outer (inner (max k 0))
    split at h
    · next y closed =>
      cases h
      rw [closed] at outer' inner'
      obtain ⟨⟩ := outer'
      rw [List.nil_append] at same
      rw [split, ← same]
      exact inner'
    · cases h
  · cases h

/-- The reader accepts the phrases of the grammar, each as its tree. -/
theorem parse?_eq_some_iff {ts : List Token} {e : Expr} : g.parse? ts = some e ↔ Phrase g 0 ts e :=
  ⟨phrase_of_parse?, parse?_of_phrase⟩

theorem phrase_unique {ts : List Token} {e f : Expr} (he : Phrase g 0 ts e)
    (hf : Phrase g 0 ts f) : e = f := by
  have same : some e = some f := by rw [← parse?_of_phrase he, parse?_of_phrase hf]
  exact Option.some.inj same

end Grammar

end QueryLogic
