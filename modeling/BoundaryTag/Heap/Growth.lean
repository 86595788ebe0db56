import BoundaryTag.Heap.Basic

/-!
# Laying out and growing a heap

`Heap.format` writes the padding, the prologue and the epilogue into fresh memory;
`Heap.appendFree` appends one free block, whose header takes the place of the old epilogue, and
writes a new epilogue behind it. The new block is on no free list yet and may stand next to a
free block.
-/

namespace BoundaryTag

open HeapM

variable {σ ε : Type} [Provider σ ε]

namespace Heap

/-- A heap in which nothing has been laid out. -/
def raw (settings : Settings) (region : Region σ) : Heap σ :=
  { toRegion := region, start := 0, free := {}, settings }

/-- Ask the provider for this many bytes. -/
def grow (count : Nat) : HeapM σ Nat := fun heap =>
  match Provider.grow count heap.toRegion with
  | .ok base region => .ok base { heap with toRegion := region }
  | .error _ region => .error (.refused .outOfMemory) { heap with toRegion := region }

/-- The bytes to skip so that the block pointer behind the first header is aligned. -/
def paddingAfter (taken : Nat) : Nat :=
  (alignment - (taken + wordSize) % alignment) % alignment

/-- Write the epilogue behind the block at `bp`. -/
def closeBehind (bp : Nat) : HeapM σ Unit := do
  let last ← observe (·.blockAfter bp)
  setTagAt (← ofExcept (headerOffset last)) .epilogue

/-- Lay out an empty heap behind the bytes that the provider has handed out already. -/
def format : HeapM σ Unit := do
  let padding := paddingAfter (← get).memory.size
  let base ← grow (padding + 3 * wordSize)
  let start := base + padding + wordSize
  modify ({ · with start })
  writeBytes base (List.replicate padding 0)
  setTags start overhead true
  closeBehind start

/-- Append a free block of at least `size` bytes, and return its block pointer. -/
def appendFree (size : Nat) : HeapM σ Nat := do
  let some size := roundUp? size alignment | refuse .outOfMemory
  let room ← observe fun heap => Address.sub heapLimit heap.stop
  if size > room then refuse .outOfMemory
  let bp ← grow size
  -- the new bytes must reach the end, where the epilogue goes
  if bp + size ≠ (← get).stop then fault .gappedGrowth
  setTags bp size false
  closeBehind bp
  return bp

end Heap

end BoundaryTag
