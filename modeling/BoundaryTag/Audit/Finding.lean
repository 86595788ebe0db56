import BoundaryTag.Heap.Basic

/-!
# What an audit finds

An audit of a heap produces a list of entries in the order in which they are found. Anomalies are
problems; notes only describe what was seen. Every anomaly belongs to one of nine kinds, and a
`Tally` counts the anomalies of each kind.
-/

namespace BoundaryTag

/-- Something that a well-formed heap does not show. -/
inductive Anomaly where
  /-- The prologue is not an allocated block of eight bytes with equal tags. -/
  | badPrologue (header : Tag)
  /-- The chain of blocks leaves the heap. -/
  | pastEnd (bp stop : Nat)
  /-- The last block of the chain leaves the heap. -/
  | blockPastEnd (bp size stop : Nat)
  /-- The chain does not end on an allocated header of size zero at the end of the heap. -/
  | badEpilogue (bp : Nat)
  /-- A block pointer is not a multiple of the alignment. -/
  | misaligned (bp : Nat)
  /-- The header and the footer of a block differ. -/
  | tagMismatch (bp : Nat) (header footer : Tag)
  /-- A free block follows another one. -/
  | adjacentFree (bp : Nat)
  /-- The free list does not reach a free block. -/
  | unlistedFree (bp : Nat)
  /-- An entry of the free list is not a free block of the heap. -/
  | listedNotFree (bp : Nat)
  /-- The free list has more entries than the heap has free blocks. -/
  | endlessList (bp : Nat)
  /-- The free list comes back to a block. -/
  | visitedTwice (bp : Nat)
  /-- A block of the free list does not link back to the one before it. -/
  | wrongPredecessor (bp : Nat) (found expected : Option Nat)
  /-- The list's own count is not the number of its entries. -/
  | countMismatch (count walked : Nat)
  deriving DecidableEq, Repr

/-- Something that was seen and is not a problem. -/
inductive Note where
  /-- The audit starts. -/
  | heading (start : Nat)
  /-- A block and its tags. -/
  | block (bp : Nat) (header footer : Tag)
  /-- The chain ends here. -/
  | endOfChain (bp : Nat)
  deriving DecidableEq, Repr

/-- One finding of an audit. -/
inductive Entry where
  | note (seen : Note)
  | anomaly (found : Anomaly)
  deriving DecidableEq, Repr

open FreeList (renderLink)

/-- The line that reports an anomaly. -/
def Anomaly.render : Anomaly → String
  | .badPrologue header => s!"Bad prologue header: {header.render}"
  | .pastEnd bp stop => s!"Error: {bp} runs past the end of the heap ({stop})"
  | .blockPastEnd bp size stop =>
      s!"Error: {bp} of size {size} runs past the end of the heap ({stop})"
  | .badEpilogue bp => s!"Bad epilogue header at {bp}"
  | .misaligned bp => s!"Error: {bp} is not doubleword aligned"
  | .tagMismatch bp header footer =>
      s!"Error: {bp} header {header.render} does not match footer {footer.render}"
  | .adjacentFree bp => s!"Error: adjacent free blocks ending at {bp}"
  | .unlistedFree bp => s!"Error: free block {bp} is not on the free list"
  | .listedNotFree bp => s!"Error: free list entry {bp} is not a free block"
  | .endlessList bp => s!"Error: free list loops, or runs past {bp}"
  | .visitedTwice bp => s!"Error: free list visits {bp} twice"
  | .wrongPredecessor bp found expected =>
      s!"Error: {bp} links back to {renderLink found}, expected {renderLink expected}"
  | .countMismatch count walked => s!"Error: free list counts {count} blocks, but holds {walked}"

/-- The line that reports a note. -/
def Note.render : Note → String
  | .heading start => s!"Heap ({start}):"
  | .block bp header footer => s!"{bp}: header: {header.render} footer: {footer.render}"
  | .endOfChain bp => s!"{bp}: EOL"

namespace Entry

/-- The line that reports an entry. -/
def render : Entry → String
  | .note seen => seen.render
  | .anomaly found => found.render

/-- The anomaly of an entry, if it is one. -/
def anomaly? : Entry → Option Anomaly
  | .note _ => none
  | .anomaly found => some found

/-- Whether an entry is an anomaly. -/
def isAnomaly (entry : Entry) : Bool := entry.anomaly?.isSome

end Entry

/-- How many anomalies of each kind an audit found. -/
structure Tally where
  badPrologue : Nat := 0
  badEpilogue : Nat := 0
  misaligned : Nat := 0
  tagMismatches : Nat := 0
  adjacentFree : Nat := 0
  unlistedFree : Nat := 0
  listedNotFree : Nat := 0
  brokenLinks : Nat := 0
  countMismatch : Nat := 0
  deriving DecidableEq, Repr

namespace Tally

/-- Count one more anomaly. -/
def record (tally : Tally) : Anomaly → Tally
  | .badPrologue _ => { tally with badPrologue := tally.badPrologue + 1 }
  | .pastEnd .. | .blockPastEnd .. | .badEpilogue _ =>
      { tally with badEpilogue := tally.badEpilogue + 1 }
  | .misaligned _ => { tally with misaligned := tally.misaligned + 1 }
  | .tagMismatch .. => { tally with tagMismatches := tally.tagMismatches + 1 }
  | .adjacentFree _ => { tally with adjacentFree := tally.adjacentFree + 1 }
  | .unlistedFree _ => { tally with unlistedFree := tally.unlistedFree + 1 }
  | .listedNotFree _ => { tally with listedNotFree := tally.listedNotFree + 1 }
  | .endlessList _ | .visitedTwice _ | .wrongPredecessor .. =>
      { tally with brokenLinks := tally.brokenLinks + 1 }
  | .countMismatch .. => { tally with countMismatch := tally.countMismatch + 1 }

/-- The counts of a list of anomalies. -/
def ofAnomalies (anomalies : List Anomaly) : Tally := anomalies.foldl record {}

/-- Whether nothing was counted. -/
def isClear (tally : Tally) : Bool := tally = {}

/-- The number of anomalies counted. -/
def total (tally : Tally) : Nat :=
  tally.badPrologue + tally.badEpilogue + tally.misaligned + tally.tagMismatches +
    tally.adjacentFree + tally.unlistedFree + tally.listedNotFree +
    tally.brokenLinks + tally.countMismatch

theorem total_record (tally : Tally) (anomaly : Anomaly) :
    (tally.record anomaly).total = tally.total + 1 := by
  cases anomaly <;> simp only [record, total] <;> omega

theorem isClear_iff_total {tally : Tally} : tally.isClear = true ↔ tally.total = 0 := by
  rcases tally with ⟨a, b, c, d, e, f, g, h, i⟩
  simp only [isClear, total, decide_eq_true_eq, Tally.mk.injEq]
  omega

/-- Every anomaly is counted once. -/
theorem total_ofAnomalies (anomalies : List Anomaly) :
    (ofAnomalies anomalies).total = anomalies.length := by
  have hfold : ∀ (tally : Tally),
      (anomalies.foldl record tally).total = tally.total + anomalies.length := by
    induction anomalies with
    | nil => intro tally; rfl
    | cons anomaly anomalies ih =>
        intro tally
        rw [List.foldl_cons, ih, total_record, List.length_cons]
        omega
  rw [ofAnomalies, hfold]
  exact Nat.zero_add _

end Tally

end BoundaryTag
