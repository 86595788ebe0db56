import BoundaryTag.Layout.Basic
import BoundaryTag.Settings

/-!
# First fit on layouts

The allocation rules of the heap, stated on layouts: take the first listed block that is large
enough, growing the heap if there is none; put the rest of a split block in front of the list;
merge a freed block with its free neighbours and put the result in front of the list. Merging joins
all runs of free blocks at once; where no free block stood beside another one before, these are the
block and its two neighbours (`Layout.Orderly.joinsNeighbours`). Whether the provider grants a
request for more memory is a parameter.
-/

namespace BoundaryTag.Layout

/-- Merge the free block that covers an address with its free neighbours, and put it in front of the
list. The answer is the address of the merged block. -/
def settle (layout : Layout) (address : Nat) : Nat × Layout :=
  let blocks := mergeFree layout.blocks
  let merged := ((blocks.find? (·.Covers address)).map (·.address)).getD address
  let others := layout.order.filter fun listed =>
    listed ≠ merged ∧ listed ∈ freeAddresses blocks
  (merged, { layout with blocks, order := merged :: others })

/-- Append a free block of `count` bytes and merge it with the last block if that is free. -/
def expand (layout : Layout) (count : Nat) : Nat × Layout :=
  settle
    { layout with
      blocks := layout.blocks ++ [⟨layout.stop, count, false⟩]
      stop := layout.stop + count }
    layout.stop

/-- The layout of a heap whose prologue is at `start`, with one free block of this size. -/
def initial (start size : Nat) : Layout where
  blocks := [⟨start + overhead, size, false⟩]
  order := [start + overhead]
  stop := start + overhead + size

/-- The first listed block with at least `size` bytes. -/
def firstFit (layout : Layout) (size : Nat) : Option Nat :=
  layout.order.find? fun listed => size ≤ layout.sizeAt listed

/-- Take the free block with this address for `size` bytes. -/
def occupy (layout : Layout) (address size minBlock : Nat) : Layout :=
  let others := layout.order.erase address
  { layout with
    blocks := layout.blocks.flatMap fun block =>
      if block.address = address then block.carve size minBlock else [block]
    order :=
      if layout.sizeAt address - size ≥ minBlock then (address + size) :: others else others }

/-- Allocate a block with at least `request` bytes of payload, given which requests for more memory
are granted. -/
def allocate (layout : Layout) (settings : Settings) (granted : Nat → Bool) (request : Nat) :
    Except Refusal (Nat × Layout) :=
  if request = 0 then .error .emptyRequest
  else match blockSizeFor? request settings.minBlock with
    | none => .error .outOfMemory
    | some size =>
        match layout.firstFit size with
        | some address => .ok (address, layout.occupy address size settings.minBlock)
        | none =>
            let count := max size settings.chunkSize
            if layout.stop + count ≤ heapLimit ∧ granted count = true then
              let (address, grown) := layout.expand count
              .ok (address, grown.occupy address size settings.minBlock)
            else .error .outOfMemory

/-- Free the allocated block with this address. -/
def release (layout : Layout) (address : Nat) : Layout :=
  (settle { layout with blocks := layout.blocks.map (Block.markFree address) } address).2

/-- Move the allocated block with this address into a new one. -/
def reallocate (layout : Layout) (settings : Settings) (granted : Nat → Bool)
    (address request : Nat) : Except Refusal (Nat × Layout) := do
  let (target, placed) ← layout.allocate settings granted request
  return (target, placed.release address)

end BoundaryTag.Layout
