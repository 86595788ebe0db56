import BoundaryTag.Audit.ListCheck

/-!
# Following the free list with marks

The free blocks are known in the order of their addresses. So an entry of the free list is found
among them by bisection, and a mark for each of them says whether it has been visited: no entry has
to be compared with all of them, or with all entries before it. The links of an entry come from a
reader, which is asked only for entries that were found and had no mark.
-/

namespace BoundaryTag

/-- Look for a value in an increasing list, between two positions of it. -/
def bisectFrom (values : List Nat) (value low high : Nat) : Option Nat :=
  if _hrange : low < high then
    let middle := low + (high - low) / 2
    match compare value (values.getD middle 0) with
    | .lt => bisectFrom values value low middle
    | .eq => some middle
    | .gt => bisectFrom values value (middle + 1) high
  else none
termination_by high - low

/-- The position of a value in an increasing list. -/
def bisect (values : List Nat) (value : Nat) : Option Nat :=
  bisectFrom values value 0 values.length

/-- Both links of a free block, the one back first. -/
def Heap.links {σ : Type} (heap : Heap σ) (bp : Nat) : Except Fault (Option Nat × Option Nat) := do
  let found ← heap.predecessor bp
  let next ← heap.successor bp
  return (found, next)

/-- Follow the free list from `link`, given the free blocks, their marks, the number of entries so
far and the entry before. -/
def followMarked (links : Nat → Except Fault (Option Nat × Option Nat)) (free : List Nat)
    (marks : List Bool) (walked : Nat) (before link : Option Nat) : Except Fault ListCheck :=
  match link with
  | none => .ok ⟨[], []⟩
  | some bp =>
      if _hendless : walked > free.length then .ok ⟨[.endlessList bp], []⟩
      else
        match bisect free bp with
        | none => .ok ⟨[.listedNotFree bp], [bp]⟩
        | some index =>
            if marks.getD index false then .ok ⟨[.visitedTwice bp], [bp]⟩
            else do
              let (found, next) ← links bp
              let rest ← followMarked links free (marks.set index true) (walked + 1) (some bp) next
              let wrong := if found ≠ before then [.wrongPredecessor bp found before] else []
              return ⟨wrong ++ rest.anomalies, bp :: rest.visited⟩
termination_by free.length + 1 - walked

/-- Follow the free list from its head, with no free block marked. -/
def checkMarked (links : Nat → Except Fault (Option Nat × Option Nat)) (free : List Nat)
    (head : Option Nat) : Except Fault ListCheck :=
  followMarked links free (List.replicate free.length false) 0 none head

end BoundaryTag
