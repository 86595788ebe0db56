import BoundaryTag.Audit.Finding

/-!
# Checking the free list against the free blocks

The free list is followed from its head as long as it visits blocks that are known to be free
and were not visited before; only the links of such blocks are read, so the check ends whatever
the links say. Afterwards the free blocks that were not visited are reported, and a count that
is wrong.
-/

namespace BoundaryTag

/-- What following the free list found, and the block pointers that it visited, in order. -/
structure ListCheck where
  anomalies : List Anomaly
  visited : List Nat
  deriving DecidableEq, Repr

variable {σ : Type}

/-- Follow the free list from `link`, for at most `budget` entries, given the free blocks, those
visited already and the entry before. -/
def Heap.checkLinks (heap : Heap σ) (free : List Nat) (budget : Nat) (visited : List Nat)
    (before link : Option Nat) : Except Fault ListCheck :=
  match link, budget with
  | none, _ => .ok ⟨[], []⟩
  | some bp, 0 => .ok ⟨[.endlessList bp], []⟩
  | some bp, budget + 1 =>
      -- the links of a block that is not free mean nothing, so the check ends here
      if bp ∉ free then .ok ⟨[.listedNotFree bp], [bp]⟩
      else if bp ∈ visited then .ok ⟨[.visitedTwice bp], [bp]⟩
      else do
        let found ← heap.predecessor bp
        let next ← heap.successor bp
        let rest ← heap.checkLinks free budget (bp :: visited) (some bp) next
        let wrong := if found ≠ before then [.wrongPredecessor bp found before] else []
        return ⟨wrong ++ rest.anomalies, bp :: rest.visited⟩

/-- Follow the free list from its head. -/
def Heap.checkList (heap : Heap σ) (free : List Nat) : Except Fault ListCheck :=
  heap.checkLinks free (free.length + 1) [] none heap.free.head

/-- All anomalies of a free list with this count, given the free blocks in the order of their
addresses. -/
def ListCheck.allAnomalies (check : ListCheck) (free : List Nat) (count : Nat) : List Anomaly :=
  check.anomalies ++ (free.filter (· ∉ check.visited)).map .unlistedFree ++
    if count ≠ check.visited.length then [.countMismatch count check.visited.length] else []

end BoundaryTag
