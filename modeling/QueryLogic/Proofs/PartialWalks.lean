import QueryLogic.Proofs.PrunedWalks
/-!
Walkers that give some handlers and leave the others to the default way. As long as every handler goes on
below its node, it does not matter which of them are given: the walk does what the walker does at each
call of a whole walk, one call after the other. So what a partial walker records can be read off the calls
that a walker with all handlers records, and neither misses a leaf or a connective.

What is proved:
  1. `Walker.Acts.walk_eq`: a walk is a run through the calls of the whole walk.
  2. `Walker.Acts.walk_noting`: a walker that notes what some calls tell records just that.
  3. `Expr.mem_landmarks_iff` and `Expr.pairwise_landmarks`: the leaves and connectives with their places,
     each once, those of the left operand before those of the right one and a connective before both.
  4. `Expr.walks_agree`: what the walker with all handlers, the leaf recorder and the collector of
     columns record of them.
-/
namespace QueryLogic

/-! ## Walkers that always go on -/

/-- At every call the walker acts on the state and then goes on; where it has no handler of its own the
action is none. -/
structure Walker.Acts {σ : Type} (w : Walker σ) (act : Call → σ → σ) : Prop where
  enter : ∀ e descend, w.enter e descend = fun s => descend (act .expr s)
  literal : ∀ loc v, w.literal loc v = act (.literal v)
  column : ∀ loc n, w.column loc n = act (.column n)
  negation : ∀ loc x descend, w.negation loc x descend = fun s => descend (act .not s)
  binary : ∀ loc c l r descend, w.binary loc c l r descend = fun s => descend (act (.binary c) s)
  connective : ∀ c, w.connective c = act (.connective c)

namespace Expr

theorem calls_not (loc : Option Location) (x : Expr) :
    (not loc x).calls [] = .expr :: .not :: x.calls [] := by
  rw [calls_eq_reachedCalls, calls_eq_reachedCalls, reachedCalls_not]
  simp

theorem calls_binary (loc : Option Location) (c : Connective) (l r : Expr) :
    (binary loc c l r).calls [] =
      .expr :: .binary c :: .connective c :: (l.calls [] ++ r.calls []) := by
  rw [calls_eq_reachedCalls, calls_eq_reachedCalls, calls_eq_reachedCalls, reachedCalls_binary]
  simp

end Expr

/-- Notes what a call tells, if it tells anything. -/
def noted {α : Type} (tell : Call → Option α) (call : Call) (seen : Array α) : Array α :=
  match tell call with
  | some a => seen.push a
  | none => seen

theorem foldl_noted {α : Type} (tell : Call → Option α) (calls : List Call) (seen : Array α) :
    calls.foldl (fun seen call => noted tell call seen) seen =
      seen ++ (calls.filterMap tell).toArray := by
  induction calls generalizing seen with
  | nil => exact Array.append_empty.symm
  | cons call calls ih =>
    rw [List.foldl_cons, ih, List.filterMap_cons, noted]
    cases tell call with
    | none => rfl
    | some a => simp

namespace Walker.Acts

variable {σ α : Type}

/-- A walk does what the walker does at the calls of the whole walk, in their order. -/
theorem walk_eq {w : Walker σ} {act : Call → σ → σ} (h : w.Acts act) (e : Expr) (s : σ) :
    w.walk e s = (e.calls []).foldl (fun s call => act call s) s := by
  induction e generalizing s with
  | literal loc v =>
    rw [walk, h.enter, h.literal]
    rfl
  | column loc n =>
    rw [walk, h.enter, h.column]
    rfl
  | not loc x ih =>
    rw [walk, h.enter, h.negation, Expr.calls_not]
    exact ih _
  | binary loc c l r ihl ihr =>
    rw [walk, h.enter, h.binary, h.connective, Expr.calls_binary]
    simp only [List.foldl_cons, List.foldl_append]
    rw [ihr, ihl]

theorem walk_noting {w : Walker (Array α)} {tell : Call → Option α} (h : w.Acts (noted tell))
    (e : Expr) : (w.walk e #[]).toList = (e.calls []).filterMap tell := by
  rw [h.walk_eq, foldl_noted, Array.empty_append]

end Walker.Acts

/-! ## The partial walkers -/

namespace Call

def isLiteral : Call → Bool
  | literal _ => true
  | _ => false

/-- Whether a call is for a column or a literal. -/
def isLeaf : Call → Bool
  | literal _ => true
  | column _ => true
  | _ => false

def isConnective : Call → Bool
  | connective _ => true
  | _ => false

def columnName? : Call → Option ColumnName
  | column n => some n
  | _ => none

end Call

theorem acts_leafRecorder :
    leafRecorder.Acts (noted (Option.guard fun call => call.isLiteral || call.isConnective)) where
  enter _ _ := rfl
  literal _ _ := rfl
  column _ _ := rfl
  negation _ _ _ := rfl
  binary _ _ _ _ _ := rfl
  connective _ := rfl

theorem acts_columnCollector : columnCollector.Acts (noted Call.columnName?) where
  enter _ _ := rfl
  literal _ _ := rfl
  column _ _ := rfl
  negation _ _ _ := rfl
  binary _ _ _ _ _ := rfl
  connective _ := rfl

namespace Expr

theorem literalCalls_eq (e : Expr) :
    e.literalCalls = (e.calls []).filter fun call => call.isLiteral || call.isConnective := by
  rw [literalCalls, acts_leafRecorder.walk_noting, List.filterMap_eq_filter]

theorem columns_eq_filterMap_calls (e : Expr) :
    e.columns = (e.calls []).filterMap Call.columnName? :=
  acts_columnCollector.walk_noting e

/-! ## Leaves and connectives on the way -/

/-- The leaf at a node, or its connective; a negation has neither. -/
def landmark? : Expr → Option Call
  | literal _ v => some (.literal v)
  | column _ n => some (.column n)
  | not _ _ => none
  | binary _ c _ _ => some (.connective c)

/-- The calls for leaves and connectives with their places, as a whole walk comes by them. -/
def landmarks (e : Expr) : List PlacedCall :=
  e.placedCalls.filter fun p => p.call.isLeaf || p.call.isConnective

theorem landmark?_eq_some_iff {e : Expr} {call : Call} :
    e.landmark? = some call ↔
      call ∈ e.callsAt ∧ (call.isLeaf || call.isConnective) = true := by
  cases e <;> cases call <;> simp [landmark?, callsAt, Call.isLeaf, Call.isConnective, eq_comm]

theorem mem_landmarks_iff {e : Expr} {p : PlacedCall} :
    p ∈ e.landmarks ↔ ∃ x, e.node? p.route = some x ∧ x.landmark? = some p.call := by
  simp only [landmarks, List.mem_filter, mem_placedCalls_iff, landmark?_eq_some_iff]
  constructor
  · rintro ⟨⟨x, found, among⟩, marked⟩
    exact ⟨x, found, among, marked⟩
  · rintro ⟨x, found, among, marked⟩
    exact ⟨⟨x, found, among⟩, marked⟩

/-- No two are at the same node, so they are in the order of the nodes. -/
theorem pairwise_landmarks (e : Expr) :
    e.landmarks.Pairwise fun p q => p.route.Before q.route := by
  apply (e.pairwise_placedCalls.filter _).imp_of_mem
  intro p q hp hq before
  rcases before with before | ⟨same, later⟩
  · exact before
  · obtain ⟨x, found, mark⟩ := mem_landmarks_iff.1 hp
    obtain ⟨y, found', mark'⟩ := mem_landmarks_iff.1 hq
    rw [same, found'] at found
    obtain rfl := Option.some.inj found
    have call : q.call = p.call := Option.some.inj (mark'.symm.trans mark)
    rw [call] at later
    exact absurd later (Nat.lt_irrefl _)

theorem filter_calls_eq_map_landmarks (e : Expr) :
    ((e.calls []).filter fun call => call.isLeaf || call.isConnective) =
      e.landmarks.map PlacedCall.call := by
  rw [calls_eq_map_placedCalls, List.filter_map]
  rfl

/-- The leaf recorder notes what is no column. -/
theorem literalCalls_eq_filter_landmarks (e : Expr) :
    e.literalCalls = (e.landmarks.map PlacedCall.call).filter fun call =>
      call.isLiteral || call.isConnective := by
  rw [literalCalls_eq, ← filter_calls_eq_map_landmarks, List.filter_filter]
  apply List.filter_congr
  intro call _
  cases call <;> rfl

theorem columns_eq_filterMap_landmarks (e : Expr) :
    e.columns = (e.landmarks.map PlacedCall.call).filterMap Call.columnName? := by
  rw [columns_eq_filterMap_calls, ← filter_calls_eq_map_landmarks, List.filterMap_filter]
  apply List.filterMap_congr
  intro call _
  cases call <;> rfl

theorem map_some_filter_isLeaf_calls (e : Expr) :
    ((e.calls []).filter Call.isLeaf).map some = e.leaves.map landmark? := by
  induction e with
  | literal loc v => rfl
  | column loc n => rfl
  | not loc x ih =>
    rw [calls_not, leaves, ← ih]
    rfl
  | binary loc c l r ihl ihr =>
    rw [calls_binary, leaves, List.map_append, ← ihl, ← ihr, ← List.map_append, ← List.filter_append]
    rfl

/-- Three walkers on one way. Whatever handlers a walker gives, it acts at the calls of the whole walk, and
what the leaf recorder and the collector of columns note is what concerns them among these calls. Of the
leaves and connectives none is left out and each is come by once, the leaves from left to right and a
connective before everything in its operands. -/
theorem walks_agree (e : Expr) :
    (∀ {σ : Type} {w : Walker σ} {act : Call → σ → σ}, w.Acts act →
      ∀ s, w.walk e s = (e.calls []).foldl (fun s call => act call s) s) ∧
    (e.literalCalls = (e.calls []).filter fun call => call.isLiteral || call.isConnective) ∧
    e.columns = (e.calls []).filterMap Call.columnName? ∧
    ((e.calls []).filter fun call => call.isLeaf || call.isConnective) =
      e.landmarks.map PlacedCall.call ∧
    (e.literalCalls = (e.landmarks.map PlacedCall.call).filter fun call =>
      call.isLiteral || call.isConnective) ∧
    e.columns = (e.landmarks.map PlacedCall.call).filterMap Call.columnName? ∧
    ((e.calls []).filter Call.isLeaf).map some = e.leaves.map landmark? ∧
    (∀ p, p ∈ e.landmarks ↔ ∃ x, e.node? p.route = some x ∧ x.landmark? = some p.call) ∧
    e.landmarks.Pairwise (fun p q => p.route.Before q.route) ∧
    (e.landmarks.map PlacedCall.route).Nodup := by
  refine ⟨fun h => h.walk_eq e, e.literalCalls_eq, e.columns_eq_filterMap_calls,
    e.filter_calls_eq_map_landmarks, e.literalCalls_eq_filter_landmarks,
    e.columns_eq_filterMap_landmarks, e.map_some_filter_isLeaf_calls, fun p => mem_landmarks_iff,
    e.pairwise_landmarks, ?_⟩
  apply e.pairwise_landmarks.map
  intro p q before same
  exact Route.not_before_self q.route (same ▸ before)

end Expr

/-- A walker that counts negations and doubles the count at each connective, next to the two others. -/
theorem walks_agree_counting :
    let w : Walker Nat :=
      { negation := fun _ _ descend n => descend (n + 1), connective := fun _ n => 2 * n }
    let act (call : Call) (n : Nat) :=
      if call = .not then n + 1 else if call.isConnective then 2 * n else n
    let a := Expr.column (some ⟨1, 5⟩) ⟨none, "a"⟩
    let e := Expr.binary none .or
      (.not none (.binary none .and a (.literal none (.bool true)))) (.not (some ⟨1, 9⟩) a)
    w.Acts act ∧ w.walk e 1 = 7 ∧ e.columns = [⟨none, "a"⟩, ⟨none, "a"⟩] ∧
      e.literalCalls = [.connective .or, .connective .and, .literal (.bool true)] := by
  intro w act a e
  have acts : w.Acts act := ⟨fun _ _ => rfl, fun _ _ => rfl, fun _ _ => rfl, fun _ _ _ => rfl,
    fun _ _ _ _ _ => rfl, fun _ => rfl⟩
  obtain ⟨walk, literals, columns, -⟩ := Expr.walks_agree e
  exact ⟨acts, (walk acts 1).trans (by decide), columns.trans (by decide),
    literals.trans (by decide)⟩

end QueryLogic
