import BoundaryTag.Audit.ListCheck
import BoundaryTag.Audit.Survey

/-!
# Auditing a heap

An audit reads the whole heap and changes nothing. It checks the prologue, the chain of blocks
and the free list, counts the anomalies by kind, and adds up the allocated and the free blocks.
A verbose report also has a line for everything that was seen.
-/

namespace BoundaryTag

/-- How much of a heap is allocated and free. -/
structure Usage where
  heapSize : Nat
  allocatedBlocks : Nat
  allocatedSize : Nat
  freeBlocks : Nat
  freeSize : Nat
  deriving DecidableEq, Repr

/-- The statistics as a record of their fields. -/
def Usage.render (usage : Usage) : String :=
  s!"Stats \x7b heap_size: {usage.heapSize}, allocated_blocks: {usage.allocatedBlocks}, " ++
    s!"allocated_size: {usage.allocatedSize}, free_blocks: {usage.freeBlocks}, " ++
    s!"free_size: {usage.freeSize} \x7d"

/-- The sizes of blocks, added up. -/
def Usage.totalSize : List Sighting → Nat
  | [] => 0
  | sighting :: sightings => sighting.header.size + totalSize sightings

/-- The statistics of a heap of this size, given its blocks. -/
def Usage.ofSightings (heapSize : Nat) (sightings : List Sighting) : Usage :=
  let (free, allocated) := sightings.partition (·.isFree)
  { heapSize
    allocatedBlocks := allocated.length
    allocatedSize := totalSize allocated
    freeBlocks := free.length
    freeSize := totalSize free }

/-- The outcome of an audit. -/
structure Report where
  tally : Tally
  usage : Usage
  lines : List String
  deriving DecidableEq, Repr

/-- A report as text: its lines, each on a line of its own, and the statistics. -/
def Report.render (report : Report) : String :=
  String.join (report.lines.map (· ++ "\n")) ++ report.usage.render

/-- Everything that an audit finds. -/
structure Findings where
  entries : List Entry
  usage : Usage

namespace Findings

/-- The anomalies among the entries. -/
def anomalies (findings : Findings) : List Anomaly := findings.entries.filterMap (·.anomaly?)

/-- The entries that a report shows. -/
def shown (findings : Findings) (verbose : Bool) : List Entry :=
  findings.entries.filter fun entry => verbose || entry.isAnomaly

/-- The report on what was found. -/
def report (findings : Findings) (verbose : Bool) : Report where
  tally := .ofAnomalies findings.anomalies
  usage := findings.usage
  lines := (findings.shown verbose).map (·.render)

end Findings

/-- The entries for the prologue. -/
def prologueEntries (start : Nat) (header footer : Tag) : List Entry :=
  (if header.decode ≠ (overhead, true) ∨ header ≠ footer then [.anomaly (.badPrologue header)]
    else []) ++ [.note (.block start header footer)]

variable {σ : Type}

namespace Heap

/-- Read the whole heap and collect what is found. -/
def examine (heap : Heap σ) : Except Fault Findings := do
  let header ← heap.header heap.start
  let footer ← heap.footer heap.start
  let survey ← heap.survey
  let check ← heap.checkList survey.freeBlocks
  return {
    entries := .note (.heading heap.start) :: prologueEntries heap.start header footer ++
      survey.entries heap.stop ++
      (check.allAnomalies survey.freeBlocks heap.free.count).map .anomaly
    usage := .ofSightings heap.stop survey.sightings }

/-- Audit the heap. -/
def audit (heap : Heap σ) (verbose : Bool) : Except Fault Report := do
  return (← heap.examine).report verbose

/-- The verdict of an audit and the statistics. -/
def summary (heap : Heap σ) : Except Fault (Tally × Usage) := do
  let report ← heap.audit false
  return (report.tally, report.usage)

end Heap

end BoundaryTag
