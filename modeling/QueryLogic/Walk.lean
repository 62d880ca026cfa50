import QueryLogic.Expr.Basic
/-!
Walks over an expression that carry a state along. A walker says what to do at each kind of node;
every handler it does not give is the default one, which goes on into the node's operands from left
to right and leaves the state alone otherwise. A handler of a node with operands receives the
default way on as a function, so it may act before it, after it, or not go on at all. The handler
`enter` is given every node first, before the handler of its kind.
-/
namespace QueryLogic

/-- What to do at each kind of node; `descend` goes on as if the handler were not there. -/
structure Walker (σ : Type) where
  /-- Every node, before the handler of its kind. -/
  enter : Expr → (descend : σ → σ) → σ → σ := fun _ descend => descend
  literal : Option Location → Literal → σ → σ := fun _ _ s => s
  column : Option Location → ColumnName → σ → σ := fun _ _ s => s
  /-- A negation; the default goes on to the operand. -/
  negation : Option Location → Expr → (descend : σ → σ) → σ → σ := fun _ _ descend => descend
  /-- A connective node; the default goes on to the connective and then to both operands. -/
  binary : Option Location → Connective → Expr → Expr → (descend : σ → σ) → σ → σ :=
    fun _ _ _ _ descend => descend
  /-- The connective of a node, before its operands. -/
  connective : Connective → σ → σ := fun _ s => s

namespace Walker

def walk {σ : Type} (w : Walker σ) : Expr → σ → σ
  | .literal loc v => w.enter (.literal loc v) (w.literal loc v)
  | .column loc n => w.enter (.column loc n) (w.column loc n)
  | .not loc x => w.enter (.not loc x) (w.negation loc x fun s => w.walk x s)
  | .binary loc c l r => w.enter (.binary loc c l r)
      (w.binary loc c l r fun s => w.walk r (w.walk l (w.connective c s)))

end Walker

/-- A step of a walk puts some entries behind what was recorded, and does nothing else. -/
def Appends {α : Type} (f : Array α → Array α) (new : List α) : Prop :=
  ∀ seen, f seen = seen ++ new.toArray

namespace Appends

variable {α : Type} {f g : Array α → Array α} {as bs : List α}

theorem nothing : Appends (id : Array α → Array α) [] :=
  fun _ => Array.append_empty.symm

theorem push (a : α) : Appends (fun seen => seen.push a) [a] :=
  fun _ => Array.push_eq_append

theorem comp (hf : Appends f as) (hg : Appends g bs) :
    Appends (fun seen => g (f seen)) (as ++ bs) := by
  intro seen
  show g (f seen) = _
  rw [hg, hf, Array.append_assoc]
  simp

/-- The record of a walk that starts without one. -/
theorem toList (h : Appends f as) : (f #[]).toList = as := by
  rw [h, Array.empty_append]

end Appends

/-- A walker that notes the columns it comes by and nothing else. -/
def columnCollector : Walker (Array ColumnName) where
  column _ n s := s.push n

/-- The columns an expression refers to, in the order in which they appear, each as often as it
appears. -/
def Expr.columns (e : Expr) : List ColumnName := (columnCollector.walk e #[]).toList

end QueryLogic
