import BoundaryTag.Heap.Basic

/-!
# The chain of blocks

The header of each block leads to the next one. `Heap.blocks` follows the headers from the prologue
up to the first size of zero, which ends the chain.
-/

namespace BoundaryTag

variable {σ : Type}

namespace Heap

/-- The block pointers from `bp` on, up to the first block of size zero. -/
def blocksFrom (heap : Heap σ) (bp : Nat) : Except Fault (List Nat) :=
  if _hinside : bp ≤ heap.memory.size then do
    let size ← heap.blockSize bp
    if _hsize : size = 0 then return []
    return bp :: (← heap.blocksFrom (bp + size))
  else .error .outOfBounds
termination_by heap.memory.size + 1 - bp

/-- The blocks of the heap from the prologue up to the epilogue, which is not one of them. -/
def blocks (heap : Heap σ) : Except Fault (List Nat) := heap.blocksFrom heap.start

end Heap

end BoundaryTag
