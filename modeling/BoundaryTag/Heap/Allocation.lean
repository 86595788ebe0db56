import BoundaryTag.Heap.FreeList
import BoundaryTag.Heap.Growth

/-!
# Allocating, freeing and moving blocks

A request takes the first block of the free list that is large enough, and what is left of that
block becomes a free block of its own when it can be one. A freed block is merged at once with
whichever of its neighbours are free, so no two free blocks ever stand side by side; the merged
block goes in front of the free list.
-/

namespace BoundaryTag

open HeapM

variable {σ : Type}

namespace Heap

/-- Merge a free block that is not listed with its free neighbours and list the result, which is
returned. The neighbours leave the list while their links are still intact. -/
def settle (bp : Nat) : HeapM σ Nat := do
  let prev ← observe (·.blockBefore bp)
  let next ← observe (·.blockAfter bp)
  let prevAllocated ← observe (·.isAllocated prev)
  let nextAllocated ← observe (·.isAllocated next)
  let size ← observe (·.blockSize bp)
  let merged ← match prevAllocated, nextAllocated with
    | true, true => pure bp
    | true, false => do
        -- the links of `next` stand in what becomes payload, so it is delisted first
        delist next
        let nextSize ← observe (·.blockSize next)
        setTags bp (size + nextSize) false
        pure bp
    | false, true => do
        delist prev
        let prevSize ← observe (·.blockSize prev)
        setTags prev (size + prevSize) false
        pure prev
    | false, false => do
        delist prev
        delist next
        let prevSize ← observe (·.blockSize prev)
        let nextSize ← observe (·.blockSize next)
        setTags prev (size + (prevSize + nextSize)) false
        pure prev
  enlist merged
  return merged

/-- The first block of at least `size` bytes among at most `limit` blocks from `link` on. -/
def firstFitFrom (heap : Heap σ) (size limit : Nat) (link : Option Nat) :
    Except Fault (Option Nat) :=
  match limit, link with
  | _, none => .ok none
  | 0, some _ => .error .endlessList
  | limit + 1, some bp => do
      let next ← heap.successor bp
      if (← heap.blockSize bp) ≥ size then return some bp
      heap.firstFitFrom size limit next

/-- The first block of the free list with at least `size` bytes. -/
def firstFit (heap : Heap σ) (size : Nat) : Except Fault (Option Nat) :=
  heap.firstFitFrom size heap.memory.size heap.free.head

/-- Take a listed block for `size` bytes. The rest of it is listed as a block of its own, unless it
would be too small to be one. -/
def occupy (bp size : Nat) : HeapM σ Unit := do
  let whole ← observe (·.blockSize bp)
  delist bp
  let left ← ofExcept (Address.sub whole size)
  if left ≥ (← get).settings.minBlock then
    -- the new header has to be there before it leads to the rest
    setTags bp size true
    let rest ← observe (·.blockAfter bp)
    setTags rest left false
    enlist rest
  else setTags bp whole true

/-- Free a block that was allocated before. -/
def release (address : Nat) : HeapM σ Unit := do
  let heap ← get
  if ¬ (heap.start < address ∧ address < heap.stop) then fault (.freeOutside address)
  if ¬ (← observe (·.isAllocated address)) then fault (.doubleFree address)
  let size ← observe (·.blockSize address)
  setTags address size false
  discard (settle address)

variable {ε : Type} [Provider σ ε]

/-- Grow the heap by at least `size` bytes, and return the free block that the new bytes are in. -/
def expand (size : Nat) : HeapM σ Nat := do settle (← appendFree size)

/-- Allocate a block with at least `request` bytes of payload. -/
def allocate (request : Nat) : HeapM σ Nat := do
  if request = 0 then refuse .emptyRequest
  let settings := (← get).settings
  let some size := blockSizeFor? request settings.minBlock | refuse .outOfMemory
  let bp ← match ← observe (·.firstFit size) with
    | some bp => pure bp
    | none => expand (max size settings.chunkSize)
  if (← observe (·.blockSize bp)) < size then fault .blockTooSmall
  occupy bp size
  return bp

/-- Move an allocated block into a new one of at least `request` bytes of payload, with as much of
its contents as both can hold. When the request is refused, the block stays as it was. -/
def reallocate (address request : Nat) : HeapM σ Nat := do
  if ¬ (← observe (·.isAllocated address)) then fault (.reallocateFree address)
  let target ← allocate request
  -- the old block is still allocated, so the new one cannot overlap it
  let held ← observe fun heap => do Address.sub (← heap.blockSize address) overhead
  copyBytes address target (min request held)
  release address
  return target

/-- Make a raw heap ready for use: lay it out and give it its first free block. -/
def setUp : HeapM σ Unit := do
  let settings := (← get).settings
  if let .error reason := settings.check then refuse reason
  format
  discard (expand settings.chunkSize)

/-- A heap of these settings on a region, with one free block of a chunk. -/
def create (settings : Settings) (region : Region σ) : EStateM.Result Failure (Heap σ) Unit :=
  setUp.run (raw settings region)

end Heap

end BoundaryTag
