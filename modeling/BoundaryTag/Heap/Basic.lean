import BoundaryTag.Provider.Basic
import BoundaryTag.Settings
import BoundaryTag.Tag

/-!
# Heaps

A heap is a region of memory that describes itself: every block starts with a header tag and
ends with an equal footer tag, and a free block keeps the links of the free list in its first
two payload words.

     bp-4      bp            bp+4                          bp+size-8
    +--------+-------------+-----------+------ ... ------+--------+
    | header | predecessor | successor |                 | footer |
    +--------+-------------+-----------+------ ... ------+--------+

The blocks follow each other from the prologue, an allocated block without payload, to the
epilogue, a header of size zero at the end of the memory:

    +---------+-------------+-------------+--------------------+-------------+
    | padding | header (8a) | footer (8a) | zero or more blocks| header (0a) |
    +---------+-------------+-------------+--------------------+-------------+

This module reads and writes tags, links and payloads. Reading is a function on heaps; writing
is an action of `HeapM`, which keeps the heap also when it faults. Nothing here looks at the
shape of the heap: an access faults exactly when its bytes lie outside the memory.
-/

namespace BoundaryTag

/-- What the heap itself remembers of its free list: the first block and the number of blocks. All
other links are in the blocks. -/
structure FreeList where
  head : Option Nat := none
  count : Nat := 0
  deriving DecidableEq, Repr

namespace FreeList

/-- Whether the list has no first block. -/
def isEmpty (list : FreeList) : Bool := list.head.isNone

/-- A link as text. -/
def renderLink : Option Nat → String
  | some bp => s!"Some({bp})"
  | none => "None"

/-- The list as a record of its two fields. -/
def render (list : FreeList) : String :=
  s!"FreeList \x7b head: {renderLink list.head}, len: {list.count} \x7d"

end FreeList

/-- The block that a word links to; a zero word is no link. -/
def linkOfWord (word : UInt32) : Option Nat := if word = 0 then none else some word.toNat

/-- The word that links to a block, of whose address it keeps the low 32 bits. -/
def wordOfLink (link : Option Nat) : UInt32 := UInt32.ofNat (link.getD 0)

/-- A heap over a provider with state `σ`. -/
structure Heap (σ : Type) extends Region σ where
  /-- The block pointer of the prologue. -/
  start : Nat
  free : FreeList
  settings : Settings

/-- Actions on a heap. A failed action keeps the heap as it was when the action stopped. -/
abbrev HeapM (σ : Type) := EStateM Failure (Heap σ)

variable {σ : Type}

namespace Heap

/-- The end of the heap, which is also the block pointer of the epilogue. -/
def stop (heap : Heap σ) : Nat := heap.memory.size

/-- The heap with these bytes. -/
def withMemory (heap : Heap σ) (memory : Memory) : Heap σ := { heap with memory }

/-! ## Reading -/

/-- The word at an offset. Sums that leave the address space are out of bounds too, since no memory
reaches its end. -/
def wordAt (heap : Heap σ) (offset : Nat) : Except Fault UInt32 :=
  if offset + wordSize ≤ heap.memory.size then .ok (heap.memory.word offset)
  else .error .outOfBounds

/-- The tag at an offset. -/
def tagAt (heap : Heap σ) (offset : Nat) : Except Fault Tag := do
  return ⟨← heap.wordAt offset⟩

/-- Where the header of a block is. -/
def headerOffset (bp : Nat) : Except Fault Nat := Address.sub bp wordSize

/-- The header of a block. -/
def header (heap : Heap σ) (bp : Nat) : Except Fault Tag := do
  heap.tagAt (← headerOffset bp)

/-- The size of a block, according to its header. -/
def blockSize (heap : Heap σ) (bp : Nat) : Except Fault Nat := do
  return (← heap.header bp).size

/-- Whether a block is allocated, according to its header. -/
def isAllocated (heap : Heap σ) (bp : Nat) : Except Fault Bool := do
  return (← heap.header bp).allocated

/-- Where the footer of a block is, according to its header. -/
def footerOffset (heap : Heap σ) (bp : Nat) : Except Fault Nat := do
  Address.sub (← Address.add bp (← heap.blockSize bp)) overhead

/-- The footer of a block. -/
def footer (heap : Heap σ) (bp : Nat) : Except Fault Tag := do
  heap.tagAt (← heap.footerOffset bp)

/-- The block that follows, found from the header. -/
def blockAfter (heap : Heap σ) (bp : Nat) : Except Fault Nat := do
  Address.add bp (← heap.blockSize bp)

/-- The block before, found from its footer, which is just below this block's header. -/
def blockBefore (heap : Heap σ) (bp : Nat) : Except Fault Nat := do
  let footer ← heap.tagAt (← Address.sub bp overhead)
  Address.sub bp footer.size

/-- The link at an offset. -/
def linkAt (heap : Heap σ) (offset : Nat) : Except Fault (Option Nat) := do
  return linkOfWord (← heap.wordAt offset)

/-- The free block before this one on the free list. -/
def predecessor (heap : Heap σ) (bp : Nat) : Except Fault (Option Nat) := heap.linkAt bp

/-- The free block after this one on the free list. -/
def successor (heap : Heap σ) (bp : Nat) : Except Fault (Option Nat) := heap.linkAt (bp + wordSize)

/-- The length of the payload of a block, which must lie inside the memory. -/
def payloadLength (heap : Heap σ) (bp : Nat) : Except Fault Nat := do
  let stop ← heap.footerOffset bp
  if bp ≤ stop ∧ stop ≤ heap.memory.size then return stop - bp else throw .outOfBounds

/-- The payload of a block. -/
def payload (heap : Heap σ) (bp : Nat) : Except Fault (List UInt8) := do
  return heap.memory.slice bp (← heap.payloadLength bp)

/-- This many bytes of a payload, from this offset in it on. -/
def readPayload (heap : Heap σ) (bp offset count : Nat) : Except Fault (List UInt8) := do
  let length ← heap.payloadLength bp
  if offset + count ≤ length then return heap.memory.slice (bp + offset) count
  else throw .outOfBounds

end Heap

/-! ## Writing -/

namespace HeapM

/-- The value of a computation that may fault. -/
def ofExcept (result : Except Fault α) : HeapM σ α :=
  match result with
  | .ok value => pure value
  | .error cause => throw (.fault cause)

/-- What a reading function finds in the heap. -/
def observe (read : Heap σ → Except Fault α) : HeapM σ α := fun heap =>
  match read heap with
  | .ok value => .ok value heap
  | .error cause => .error (.fault cause) heap

/-- Stop with a fault. -/
def fault (cause : Fault) : HeapM σ α := throw (.fault cause)

/-- Refuse the request. -/
def refuse (reason : Refusal) : HeapM σ α := throw (.refused reason)

end HeapM

open HeapM

namespace Heap

/-- Write bytes, all of which must lie inside the memory. -/
def writeBytes (offset : Nat) (bytes : List UInt8) : HeapM σ Unit := fun heap =>
  if offset + bytes.length ≤ heap.memory.size then
    .ok () (heap.withMemory (heap.memory.write offset bytes))
  else .error (.fault .outOfBounds) heap

/-- Write a word. -/
def setWordAt (offset : Nat) (word : UInt32) : HeapM σ Unit := writeBytes offset (wordBytes word)

/-- Write a tag. -/
def setTagAt (offset : Nat) (tag : Tag) : HeapM σ Unit := setWordAt offset tag.bits

/-- Write the header and the footer of a block of this size, whatever the old header said. -/
def setTags (bp size : Nat) (allocated : Bool) : HeapM σ Unit := do
  let tag ← ofExcept (Tag.pack size allocated)
  setTagAt (← ofExcept (headerOffset bp)) tag
  setTagAt (← ofExcept (do Address.sub (← Address.add bp size) overhead)) tag

/-- Write a link. -/
def setLinkAt (offset : Nat) (link : Option Nat) : HeapM σ Unit :=
  setWordAt offset (wordOfLink link)

/-- Link a free block to the one before it. -/
def setPredecessor (bp : Nat) (link : Option Nat) : HeapM σ Unit := setLinkAt bp link

/-- Link a free block to the one after it. -/
def setSuccessor (bp : Nat) (link : Option Nat) : HeapM σ Unit := setLinkAt (bp + wordSize) link

/-- Write bytes into the payload of a block, from this offset in it on. -/
def writePayload (bp offset : Nat) (bytes : List UInt8) : HeapM σ Unit := do
  let length ← observe (·.payloadLength bp)
  if offset + bytes.length ≤ length then writeBytes (bp + offset) bytes else fault .outOfBounds

/-- Fill the first bytes of the payload of a block with one byte. -/
def fillPayload (bp count : Nat) (value : UInt8) : HeapM σ Unit := do
  let length ← observe (·.payloadLength bp)
  if count ≤ length then modify fun heap => heap.withMemory (heap.memory.fill bp count value)
  else fault .outOfBounds

/-- Copy bytes from one range to another, both inside the memory; the ranges may overlap. -/
def copyBytes (source target length : Nat) : HeapM σ Unit := fun heap =>
  if source + length ≤ heap.memory.size ∧ target + length ≤ heap.memory.size then
    .ok () (heap.withMemory (heap.memory.copy source target length))
  else .error (.fault .outOfBounds) heap

end Heap

end BoundaryTag
