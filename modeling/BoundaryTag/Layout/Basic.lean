import BoundaryTag.Address
import Mathlib.Data.List.Chain

/-!
# Layouts

A layout says what a heap is, without any bytes: which blocks there are, in the order of their
addresses, which of them are allocated, and in which order the free ones are listed. `mergeFree`
joins every run of neighbouring free blocks into one, which is all that freeing and growing have
to do beyond marking a block free or appending one.
-/

namespace BoundaryTag

/-- A block: the address of its payload, its size with both tags, and whether it is allocated. -/
structure Block where
  address : Nat
  size : Nat
  allocated : Bool
  deriving DecidableEq, Repr

namespace Block

/-- The address of the block behind this one. -/
def stop (block : Block) : Nat := block.address + block.size

/-- Whether an address lies between this block's and the next one's. -/
def Covers (block : Block) (address : Nat) : Prop :=
  block.address ≤ address ∧ address < block.stop

instance (block : Block) (address : Nat) : Decidable (block.Covers address) :=
  inferInstanceAs (Decidable (_ ∧ _))

/-- Two blocks that may stand side by side: not both are free. -/
def Apart (first second : Block) : Prop := first.allocated = true ∨ second.allocated = true

/-- The two blocks as one free block. -/
def join (first second : Block) : Block := ⟨first.address, first.size + second.size, false⟩

/-- The block with this address marked as free. -/
def markFree (address : Nat) (block : Block) : Block :=
  if block.address = address then { block with allocated := false } else block

/-- What becomes of a free block that is taken for `size` bytes: it is split if the rest can be a
block of its own, and taken whole otherwise. -/
def carve (size minBlock : Nat) (block : Block) : List Block :=
  if block.size - size ≥ minBlock then
    [⟨block.address, size, true⟩, ⟨block.address + size, block.size - size, false⟩]
  else [{ block with allocated := true }]

end Block

/-- The blocks fill the addresses from `first` up to `stop` without gaps. -/
def Consecutive : Nat → List Block → Nat → Prop
  | first, [], stop => first = stop
  | first, block :: blocks, stop => block.address = first ∧ Consecutive block.stop blocks stop

/-- The addresses of the free blocks. -/
def freeAddresses (blocks : List Block) : List Nat :=
  (blocks.filter (!·.allocated)).map (·.address)

/-- Join every run of neighbouring free blocks into one free block. -/
def mergeFree : List Block → List Block
  | [] => []
  | block :: blocks =>
      match mergeFree blocks with
      | [] => [block]
      | next :: rest =>
          if block.allocated || next.allocated then block :: next :: rest
          else block.join next :: rest

/-- The blocks of a heap from the first one behind the prologue on, and the free ones among them in
the order in which they are listed. -/
structure Layout where
  blocks : List Block
  order : List Nat
  stop : Nat
  deriving DecidableEq, Repr

namespace Layout

/-- The block with this address. -/
def block? (layout : Layout) (address : Nat) : Option Block :=
  layout.blocks.find? (·.address = address)

/-- The size of the block with this address, zero if there is none. -/
def sizeAt (layout : Layout) (address : Nat) : Nat := ((layout.block? address).map (·.size)).getD 0

/-- The addresses of the allocated blocks. -/
def allocated (layout : Layout) : List Nat :=
  (layout.blocks.filter (·.allocated)).map (·.address)

end Layout

end BoundaryTag
