import QueryLogic.Draft
/-!
Drafts that are given piece after piece. A piece fills its own slot of the draft and leaves the others as
they are, so that after any run of pieces each slot holds the last value that was given for it. Hence it
does not matter how pieces for different slots are mixed, and trying to finish the draft on the way, for
which nothing is given, makes no difference either.

What is proved:
  1. `Draft.give_eq`: what one piece changes.
  2. `Draft.foldl_give`: what a draft holds after a run of pieces.
  3. `Draft.last_eq_of_rearranged`: the last values do not depend on how the pieces are mixed.
  4. `Draft.getElem?_stages`: the drafts on the way are those of the pieces given until then.
  5. `Draft.build_eq_ok_and_error_iff`: which runs of pieces make a node, which one, and why others fail.
-/
namespace QueryLogic

namespace Piece

/-- What pieces are given for. -/
inductive Slot
  | connective
  | left
  | right
  | location
  deriving DecidableEq, Repr

variable {α : Type}

def slot? : Piece α → Option Slot
  | connective _ => some .connective
  | left _ => some .left
  | right _ => some .right
  | location _ => some .location
  | nothing => none

def connective? : Piece α → Option Connective
  | connective c => some c
  | _ => none

def left? : Piece α → Option α
  | left x => some x
  | _ => none

def right? : Piece α → Option α
  | right x => some x
  | _ => none

def location? : Piece α → Option Location
  | location loc => some loc
  | _ => none

/-- Some piece is given for the slot. -/
def Given (a : Slot) (ps : List (Piece α)) : Prop := ∃ p ∈ ps, p.slot? = some a

instance (a : Slot) (ps : List (Piece α)) : Decidable (Given a ps) :=
  inferInstanceAs (Decidable (∃ p ∈ ps, p.slot? = some a))

/-- The same pieces for each slot in the same order, mixed in another way; pieces that give nothing may
be put in and left out anywhere. -/
def Rearranged (ps qs : List (Piece α)) : Prop :=
  ∀ a : Slot, ps.filter (fun p => p.slot? = some a) =
    qs.filter fun p => p.slot? = some a

/-- The values that are read are those of the pieces for one slot. -/
def Reads {β : Type} (value? : Piece α → Option β) (a : Slot) : Prop :=
  ∀ p, value? p = none ↔ p.slot? ≠ some a

theorem reads_connective : Reads (connective? : Piece α → Option Connective) .connective := by
  intro p
  cases p <;> simp [connective?, slot?]

theorem reads_left : Reads (left? : Piece α → Option α) .left := by
  intro p
  cases p <;> simp [left?, slot?]

theorem reads_right : Reads (right? : Piece α → Option α) .right := by
  intro p
  cases p <;> simp [right?, slot?]

theorem reads_location : Reads (location? : Piece α → Option Location) .location := by
  intro p
  cases p <;> simp [location?, slot?]

end Piece

namespace Draft

open Piece

variable {β : Type} {value? : Piece Expr → Option β} {a : Slot} {d : Draft}
  {ps qs : List (Piece Expr)}

/-- The outcome of giving the pieces to a blank draft, one after the other. -/
def build (ps : List (Piece Expr)) : Except Missing Expr := (ps.foldl give blank).finish

/-! ## The last value for a slot -/

/-- The last of the values that some pieces have for a slot. -/
def last (value? : Piece Expr → Option β) (ps : List (Piece Expr)) : Option β :=
  (ps.filterMap value?).getLast?

theorem last_cons (value? : Piece Expr → Option β) (p : Piece Expr) (ps : List (Piece Expr)) :
    last value? (p :: ps) = (last value? ps).or (value? p) := by
  simp only [last, List.getLast?_filterMap, List.reverse_cons, List.findSome?_append,
    List.findSome?_singleton]

theorem last_eq_none_iff (h : Reads value? a) : last value? ps = none ↔ ¬ Given a ps := by
  rw [last, List.getLast?_eq_none_iff, List.filterMap_eq_nil_iff]
  constructor
  · rintro none ⟨p, hp, own⟩
    exact (h p).1 (none p hp) own
  · intro other p hp
    exact (h p).2 fun own => other ⟨p, hp, own⟩

theorem exists_last_eq_some_iff (h : Reads value? a) :
    (∃ v, last value? ps = some v) ↔ Given a ps := by
  rw [← Option.isSome_iff_exists, Option.isSome_iff_ne_none, ne_eq, last_eq_none_iff h,
    Decidable.not_not]

/-- Pieces for other slots play no part. -/
theorem last_filter (h : Reads value? a) (ps : List (Piece Expr)) :
    last value? (ps.filter fun p => p.slot? = some a) = last value? ps := by
  rw [last, last, List.filterMap_filter]
  congr 2
  funext p
  by_cases own : p.slot? = some a
  · simp [own]
  · simp [own, (h p).2 own]

theorem last_eq_of_rearranged (h : Reads value? a) (same : Rearranged ps qs) :
    last value? ps = last value? qs := by
  rw [← last_filter h ps, same a, last_filter h qs]

/-! ## Runs of pieces -/

theorem give_eq (d : Draft) (p : Piece Expr) :
    d.give p = ⟨p.connective?.or d.connective, p.left?.or d.left, p.right?.or d.right,
      p.location?.or d.location⟩ := by
  cases p <;> rfl

theorem foldl_give (d : Draft) (ps : List (Piece Expr)) :
    ps.foldl give d = ⟨(last connective? ps).or d.connective, (last left? ps).or d.left,
      (last right? ps).or d.right, (last location? ps).or d.location⟩ := by
  induction ps generalizing d with
  | nil => rfl
  | cons p ps ih =>
    rw [List.foldl_cons, ih, give_eq]
    simp only [last_cons, Option.or_assoc]

theorem foldl_give_blank (ps : List (Piece Expr)) :
    ps.foldl give blank = ⟨last connective? ps, last left? ps, last right? ps,
      last location? ps⟩ := by
  simp [foldl_give, blank]

theorem getElem?_stages (d : Draft) (ps : List (Piece Expr)) (i : Nat) :
    (d.stages ps)[i]? = if i < ps.length then some ((ps.take (i + 1)).foldl give d) else none := by
  induction ps generalizing d i with
  | nil => simp [stages]
  | cons p ps ih =>
    cases i with
    | zero => simp [stages]
    | succ i => simp [stages, ih]

/-! ## Outcomes -/

namespace Missing

/-- What a draft is asked for, in this order. -/
def needed : List Missing := [connective, left, right]

def slot : Missing → Slot
  | connective => .connective
  | left => .left
  | right => .right

end Missing

/-- Whether a draft was given nothing of what is needed. -/
def lacks (d : Draft) : Missing → Bool
  | .connective => d.connective.isNone
  | .left => d.left.isNone
  | .right => d.right.isNone

theorem finish_eq_ok_iff {e : Expr} :
    d.finish = .ok e ↔ ∃ c l r, d.connective = some c ∧ d.left = some l ∧ d.right = some r ∧
      e = .binary d.location c l r := by
  obtain ⟨_ | c, _ | l, _ | r, loc⟩ := d <;> simp [finish, eq_comm]

theorem finish_eq_error_iff {m : Missing} :
    d.finish = .error m ↔ Missing.needed.find? d.lacks = some m := by
  obtain ⟨_ | c, _ | l, _ | r, loc⟩ := d <;> simp [finish, Missing.needed, lacks]

theorem lacks_foldl_give (ps : List (Piece Expr)) (m : Missing) :
    (ps.foldl give blank).lacks m = decide (¬ Given m.slot ps) := by
  rw [Bool.eq_iff_iff, decide_eq_true_iff, foldl_give_blank]
  cases m with
  | connective => exact Option.isNone_iff_eq_none.trans (last_eq_none_iff reads_connective)
  | left => exact Option.isNone_iff_eq_none.trans (last_eq_none_iff reads_left)
  | right => exact Option.isNone_iff_eq_none.trans (last_eq_none_iff reads_right)

theorem build_eq_ok_iff {e : Expr} :
    build ps = .ok e ↔ ∃ c l r, last connective? ps = some c ∧ last left? ps = some l ∧
      last right? ps = some r ∧ e = .binary (last location? ps) c l r := by
  rw [build, finish_eq_ok_iff, foldl_give_blank]

theorem build_eq_error_iff {m : Missing} :
    build ps = .error m ↔ Missing.needed.find? (fun m => ¬ Given m.slot ps) = some m := by
  rw [build, finish_eq_error_iff, funext (lacks_foldl_give ps)]

theorem exists_build_eq_ok_iff :
    (∃ e, build ps = .ok e) ↔ ∀ m : Missing, Given m.slot ps := by
  constructor
  · rintro ⟨e, made⟩ m
    obtain ⟨c, l, r, connective, left, right, -⟩ := build_eq_ok_iff.1 made
    cases m with
    | connective => exact (exists_last_eq_some_iff reads_connective).1 ⟨c, connective⟩
    | left => exact (exists_last_eq_some_iff reads_left).1 ⟨l, left⟩
    | right => exact (exists_last_eq_some_iff reads_right).1 ⟨r, right⟩
  · intro given
    cases outcome : build ps with
    | ok e => exact ⟨e, rfl⟩
    | error m =>
      have lacking := List.find?_some (build_eq_error_iff.1 outcome)
      exact absurd (given m) (of_decide_eq_true lacking)

theorem build_eq_of_rearranged (same : Rearranged ps qs) : build qs = build ps := by
  simp only [build, foldl_give_blank, last_eq_of_rearranged reads_connective same,
    last_eq_of_rearranged reads_left same, last_eq_of_rearranged reads_right same,
    last_eq_of_rearranged reads_location same]

/-- A node is made as soon as each needed slot has a value, and it consists of the last values; otherwise
the first slot without a value is reported, in the order in which they are asked for. The outcome is the
same however the pieces are mixed, and the outcomes on the way are those of the pieces given so far. -/
theorem build_eq_ok_and_error_iff (ps : List (Piece Expr)) :
    ((∃ e, build ps = .ok e) ↔ ∀ m : Missing, Given m.slot ps) ∧
      (∀ e, build ps = .ok e ↔ ∃ c l r, last connective? ps = some c ∧ last left? ps = some l ∧
        last right? ps = some r ∧ e = .binary (last location? ps) c l r) ∧
      (∀ m, build ps = .error m ↔
        Missing.needed.find? (fun m => ¬ Given m.slot ps) = some m) ∧
      (∀ qs, Rearranged ps qs → build qs = build ps) ∧
      ∀ i, ((blank.stages ps)[i]?).map finish =
        if i < ps.length then some (build (ps.take (i + 1))) else none := by
  refine ⟨exists_build_eq_ok_iff, fun e => build_eq_ok_iff, fun m => build_eq_error_iff,
    fun qs => build_eq_of_rearranged, ?_⟩
  intro i
  rw [getElem?_stages]
  by_cases given : i < ps.length
  · rw [if_pos given, if_pos given]
    rfl
  · rw [if_neg given, if_neg given]
    rfl

/-- The left operand and the connective are given twice, and the draft is tried on the way: the last values
count, and before the right operand is given this is what is missing. -/
theorem build_eq_ok_and_error_iff_replaced :
    let a := Expr.column (some ⟨1, 1⟩) ⟨none, "a"⟩
    let b := Expr.column none ⟨some "t", "b"⟩
    let ps : List (Piece Expr) := [.left a, .connective .or, .nothing, .left b,
      .location ⟨2, 3⟩, .right a, .connective .and]
    let qs : List (Piece Expr) := [.connective .or, .connective .and, .right a, .left a, .left b,
      .nothing, .location ⟨2, 3⟩, .nothing]
    Piece.Rearranged ps qs ∧ build qs = .ok (.binary (some ⟨2, 3⟩) .and b a) ∧
      build (ps.take 3) = .error .right ∧
      ((blank.stages ps)[2]?).map finish = some (build (ps.take 3)) := by
  intro a b ps qs
  obtain ⟨-, made, -, mixed, tried⟩ := build_eq_ok_and_error_iff ps
  obtain ⟨-, -, failed, -⟩ := build_eq_ok_and_error_iff (ps.take 3)
  have same : Piece.Rearranged ps qs := by
    intro slot
    cases slot <;> rfl
  have node : build ps = .ok (.binary (some ⟨2, 3⟩) .and b a) :=
    (made _).2 ⟨.and, b, a, rfl, rfl, rfl, rfl⟩
  exact ⟨same, (mixed qs same).trans node, (failed .right).2 (by decide), tried 2⟩

end Draft

end QueryLogic
