import BoundaryTag.Heap.Basic
import BoundaryTag.Layout.Basic

/-!
# Heaps and their layouts

`Heap.Represents` relates a heap to a layout: the tags in its memory spell the blocks, and the
links in its free blocks spell the order of the free list. `Heap.WellFormed` adds what the
settings and the 32-bit words ask for, and is what every operation of the library keeps.
-/

namespace BoundaryTag

namespace Memory

/-- The tag at an address. -/
def tag (memory : Memory) (address : Nat) : Tag := ⟨memory.word address⟩

/-- The link at an address. -/
def link (memory : Memory) (address : Nat) : Option Nat := linkOfWord (memory.word address)

/-- The header of a block spells its size and flag, and the footer is equal to the header. -/
structure Tagged (memory : Memory) (block : Block) : Prop where
  header : (memory.tag (block.address - wordSize)).decode = (block.size, block.allocated)
  footer : memory.tag (block.stop - overhead) = memory.tag (block.address - wordSize)

/-- The blocks are linked to each other in this order, the first of them to `before`. -/
def Linked (memory : Memory) : Option Nat → List Nat → Prop
  | _, [] => True
  | before, bp :: listed =>
      memory.link bp = before ∧ memory.link (bp + wordSize) = listed.head? ∧
        memory.Linked (some bp) listed

end Memory

variable {σ : Type}

namespace Heap

/-- The prologue as a block. -/
def prologue (heap : Heap σ) : Block := ⟨heap.start, overhead, true⟩

/-- The bytes of the heap spell the layout. -/
structure Represents (heap : Heap σ) (layout : Layout) : Prop where
  stop_eq : layout.stop = heap.stop
  prologue_tagged : heap.memory.Tagged heap.prologue
  consecutive : Consecutive (heap.start + overhead) layout.blocks layout.stop
  tagged : ∀ block ∈ layout.blocks, heap.memory.Tagged block
  size_pos : ∀ block ∈ layout.blocks, 0 < block.size
  epilogue : (heap.memory.tag (layout.stop - wordSize)).decode = (0, true)
  apart : layout.blocks.IsChain Block.Apart
  order_nodup : layout.order.Nodup
  mem_order : ∀ bp, bp ∈ layout.order ↔ bp ∈ freeAddresses layout.blocks
  linked : heap.memory.Linked none layout.order
  head_eq : heap.free.head = layout.order.head?
  count_eq : heap.free.count = layout.order.length

/-- The heap represents the layout, and can go on doing so: its settings are valid, its blocks are
aligned and not too small, and all of its addresses fit in a word. -/
structure WellFormed (heap : Heap σ) (layout : Layout) : Prop extends heap.Represents layout where
  settings_valid : heap.settings.Valid
  start_pos : 0 < heap.start
  start_aligned : heap.start % alignment = 0
  minBlock_le : ∀ block ∈ layout.blocks, heap.settings.minBlock ≤ block.size
  stop_le : heap.stop ≤ heapLimit

end Heap

end BoundaryTag
