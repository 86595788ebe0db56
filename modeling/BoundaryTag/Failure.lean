/-!
# Refusals and faults

An operation on a heap either succeeds, is refused, or faults. A refusal is an ordinary answer:
the request cannot be met and the caller goes on. A fault means that the caller broke the rules,
or that the bytes of the heap no longer describe a heap: an access outside the memory, an
address computation that leaves the 64-bit range, or a failed assertion.
-/

namespace BoundaryTag

/-- Why a request is refused. -/
inductive Refusal where
  /-- A request for zero bytes. -/
  | emptyRequest
  /-- The heap cannot be made large enough. -/
  | outOfMemory
  /-- Settings under which blocks would lose their alignment or the room for their links. -/
  | badSettings
  deriving DecidableEq, Repr

/-- The text shown for a refusal. -/
def Refusal.message : Refusal → String
  | .emptyRequest => "zero-size allocation request"
  | .outOfMemory => "out of memory"
  | .badSettings => "invalid heap configuration"

/-- Why an operation stops without an answer. -/
inductive Fault where
  /-- A byte range does not lie inside the memory. -/
  | outOfBounds
  /-- A sum leaves the 64-bit range. -/
  | overflow
  /-- A difference would be negative. -/
  | underflow
  /-- The provider returned a range that does not end where the memory ends. -/
  | gappedGrowth
  /-- The block chosen for a request is smaller than the request. -/
  | blockTooSmall
  /-- A buffer was asked for that is larger than any buffer can be. -/
  | oversizedBuffer
  /-- The links of the free list run in a circle. -/
  | endlessList
  /-- A tag was asked to hold a size that is not a multiple of the alignment. -/
  | unalignedSize (size : Nat)
  /-- A tag was asked to hold a size of more than 32 bits. -/
  | oversizedTag (size : Nat)
  /-- A block without a predecessor is not the head of the free list it is taken from. -/
  | notListed (bp : Nat)
  /-- The address to be freed does not lie between the prologue and the end of the heap. -/
  | freeOutside (address : Nat)
  /-- The block to be freed is free already. -/
  | doubleFree (address : Nat)
  /-- The block to be moved is free. -/
  | reallocateFree (address : Nat)
  deriving DecidableEq, Repr

/-- The text of a failed assertion; accesses and arithmetic fault without one. -/
def Fault.message? : Fault → Option String
  | .unalignedSize size => some s!"unaligned block size {size}"
  | .oversizedTag size => some s!"block size {size} overflows a tag"
  | .notListed bp => some s!"block {bp} is not on the free list"
  | .freeOutside address => some s!"free of {address} outside the heap"
  | .doubleFree address => some s!"double free of {address}"
  | .reallocateFree address => some s!"reallocate of free block {address}"
  | .outOfBounds | .overflow | .underflow | .gappedGrowth | .blockTooSmall | .oversizedBuffer
  | .endlessList => none

/-- How an operation ends when it does not succeed. -/
inductive Failure where
  /-- The request cannot be met. -/
  | refused (reason : Refusal)
  /-- The operation stopped without an answer. -/
  | fault (cause : Fault)
  deriving DecidableEq, Repr

end BoundaryTag
