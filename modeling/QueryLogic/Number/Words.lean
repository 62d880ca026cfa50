/-!
Natural numbers of any size as lists of 64-bit words, the least significant word first. Zero has no
words, and the last word is never zero, so each number has one list.
-/
namespace QueryLogic.Words

/-- The words of a number. -/
def ofNat (n : Nat) : List Nat :=
  if n = 0 then [] else n % UInt64.size :: ofNat (n / UInt64.size)
termination_by n
decreasing_by exact Nat.div_lt_self (Nat.pos_of_ne_zero ‹¬n = 0›) (by decide)

def toNat (ws : List Nat) : Nat := ws.foldr (fun w n => w + UInt64.size * n) 0

theorem toNat_ofNat (n : Nat) : toNat (ofNat n) = n := by
  fun_induction ofNat n with
  | case1 => rfl
  | case2 n _ ih =>
    rw [toNat, List.foldr_cons, ← toNat, ih]
    exact Nat.mod_add_div n UInt64.size

theorem ofNat_inj {m n : Nat} : ofNat m = ofNat n ↔ m = n :=
  ⟨fun h => toNat_ofNat m ▸ toNat_ofNat n ▸ congrArg toNat h, congrArg ofNat⟩

theorem lt_of_mem_ofNat {n w : Nat} (h : w ∈ ofNat n) : w < UInt64.size := by
  fun_induction ofNat n with
  | case1 => simp at h
  | case2 n _ ih =>
    rcases List.mem_cons.1 h with rfl | h
    · exact Nat.mod_lt _ (by decide)
    · exact ih h

end QueryLogic.Words
