import BoundaryTag.Audit.Finding

/-!
# Surveying the chain of blocks

A survey follows the headers from the first block behind the prologue, and stops where the chain
ends or leaves the heap. It only reads; what is wrong with the blocks that it saw is judged
afterwards.
-/

namespace BoundaryTag

/-- A block and its tags, as a survey saw them. -/
structure Sighting where
  bp : Nat
  header : Tag
  footer : Tag
  deriving DecidableEq, Repr

/-- Where and why a survey stops. -/
inductive ChainEnd where
  /-- At a header of size zero. -/
  | zeroSize (bp : Nat) (header : Tag)
  /-- At a block pointer behind the end of the heap. -/
  | pastEnd (bp : Nat)
  /-- At a block that does not end inside the heap. -/
  | blockPastEnd (bp size : Nat)
  deriving DecidableEq, Repr

/-- The blocks that a survey saw, in the order of their addresses, and where it stopped. -/
structure Survey where
  sightings : List Sighting
  chainEnd : ChainEnd
  deriving DecidableEq, Repr

variable {σ : Type}

/-- Follow the headers from `bp` on. -/
def Heap.surveyFrom (heap : Heap σ) (bp : Nat) : Except Fault Survey :=
  if _hpast : bp > heap.stop then .ok ⟨[], .pastEnd bp⟩
  else do
    let header ← heap.header bp
    if _hzero : header.size = 0 then return ⟨[], .zeroSize bp header⟩
    if _hover : bp + header.size > heap.stop then return ⟨[], .blockPastEnd bp header.size⟩
    let footer ← heap.footer bp
    let rest ← heap.surveyFrom (bp + header.size)
    return { rest with sightings := ⟨bp, header, footer⟩ :: rest.sightings }
termination_by heap.stop - bp

/-- Follow the headers from the first block behind the prologue on. -/
def Heap.survey (heap : Heap σ) : Except Fault Survey := heap.surveyFrom (heap.start + overhead)

namespace Sighting

/-- Whether the block is free, according to its header. -/
def isFree (sighting : Sighting) : Bool := !sighting.header.allocated

/-- What is wrong with a block, given whether the block before it is free. -/
def anomalies (sighting : Sighting) (afterFree : Bool) : List Anomaly :=
  (if sighting.bp % alignment ≠ 0 then [.misaligned sighting.bp] else []) ++
    (if sighting.header ≠ sighting.footer then
      [.tagMismatch sighting.bp sighting.header sighting.footer] else []) ++
    (if sighting.isFree && afterFree then [.adjacentFree sighting.bp] else [])

/-- A block and what is wrong with it. -/
def entries (sighting : Sighting) (afterFree : Bool) : List Entry :=
  .note (.block sighting.bp sighting.header sighting.footer) ::
    (sighting.anomalies afterFree).map .anomaly

end Sighting

/-- The entries for the blocks of a chain, given whether the block before them is free. -/
def chainEntries (afterFree : Bool) : List Sighting → List Entry
  | [] => []
  | sighting :: sightings =>
      sighting.entries afterFree ++ chainEntries sighting.isFree sightings

/-- The entries for the end of a chain. -/
def ChainEnd.entries (stop : Nat) : ChainEnd → List Entry
  | .zeroSize bp header =>
      .note (.endOfChain bp) ::
        if bp ≠ stop ∨ header.decode ≠ (0, true) then [.anomaly (.badEpilogue bp)] else []
  | .pastEnd bp => [.anomaly (.pastEnd bp stop)]
  | .blockPastEnd bp size => [.anomaly (.blockPastEnd bp size stop)]

namespace Survey

/-- The entries for all blocks and for the end of the chain. -/
def entries (survey : Survey) (stop : Nat) : List Entry :=
  chainEntries false survey.sightings ++ survey.chainEnd.entries stop

/-- The free blocks, by their headers. -/
def freeBlocks (survey : Survey) : List Nat :=
  (survey.sightings.filter (·.isFree)).map (·.bp)

end Survey

end BoundaryTag
