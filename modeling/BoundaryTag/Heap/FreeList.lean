import BoundaryTag.Heap.Basic

/-!
# The free list

The free blocks form a doubly linked list whose links stand in the blocks themselves. New blocks go
in front, and a block is taken out wherever it is, in constant time. `Heap.follow` reads the list
and looks at each block before it goes on to the next one, so a list whose links make no sense
faults at the first block that cannot be looked at. Since distinct block pointers are distinct
addresses, a list with more entries than the memory has bytes runs in a circle.
-/

namespace BoundaryTag

open HeapM

variable {σ : Type}

namespace Heap

/-- Put a block in front of the free list. -/
def enlist (bp : Nat) : HeapM σ Unit := do
  let head := (← get).free.head
  setPredecessor bp none
  setSuccessor bp head
  if let some old := head then setPredecessor old (some bp)
  modify fun heap => { heap with free := ⟨some bp, heap.free.count + 1⟩ }

/-- Take a block out of the free list and clear its links. Its links are read from its payload, so
this comes before the payload is used for anything else. -/
def delist (bp : Nat) : HeapM σ Unit := do
  let before ← observe (·.predecessor bp)
  let after ← observe (·.successor bp)
  match before with
  | none =>
      -- only the head of the list has no predecessor
      if (← get).free.head ≠ some bp then fault (.notListed bp)
      modify ({ · with free.head := after })
  | some before => setSuccessor before after
  if let some after := after then setPredecessor after before
  setPredecessor bp none
  setSuccessor bp none
  let count ← observe fun heap => Address.sub heap.free.count 1
  modify ({ · with free.count := count })

/-- What `look` finds at the blocks of the free list from the block `link` on, at most `limit` of
them. -/
def follow (heap : Heap σ) (look : Nat → Except Fault α) (limit : Nat) (link : Option Nat) :
    Except Fault (List α) :=
  match limit, link with
  | limit + 1, some bp => do
      let next ← heap.successor bp
      let found ← look bp
      return found :: (← heap.follow look limit next)
  | 0, some _ | _, none => .ok []

/-- The first blocks of the free list, at most `limit` of them. -/
def firstFree (heap : Heap σ) (limit : Nat) : Except Fault (List Nat) :=
  heap.follow .ok limit heap.free.head

/-- What `look` finds at the blocks of the free list, the last freed one first. -/
def lookAtFree (heap : Heap σ) (look : Nat → Except Fault α) : Except Fault (List α) := do
  let found ← heap.follow look (heap.memory.size + 1) heap.free.head
  if found.length ≤ heap.memory.size then return found else throw .endlessList

/-- The blocks of the free list, the last freed one first. -/
def freeBlocks (heap : Heap σ) : Except Fault (List Nat) := heap.lookAtFree .ok

/-- The free list as text, each block with its size. -/
def render (heap : Heap σ) : Except Fault String := do
  let shown ← heap.lookAtFree fun bp => do return s!"FreeBlock({bp}, {← heap.blockSize bp})"
  return "FreeList(" ++ ", ".intercalate shown ++ ")"

end Heap

end BoundaryTag
