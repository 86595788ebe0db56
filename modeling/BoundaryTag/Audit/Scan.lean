import BoundaryTag.Audit.Report

/-!
# Auditing in one pass

`Heap.audit` collects everything that it finds and reports on it afterwards. `Heap.scan` keeps no
findings: where something is wrong it raises a counter and writes a line, each on its own, and where
something is only described it writes a line if the report is to be verbose. The blocks are added up
on the way, the free ones are remembered for the free list, and both walks end as soon as they see
something that cannot be trusted.
-/

namespace BoundaryTag

namespace Report

/-- Raise a counter, and write a line on the problem. -/
def problem (report : Report) (count : Tally → Tally) (line : String) : Report :=
  { report with tally := count report.tally, lines := report.lines ++ [line] }

/-- Write a line that only describes something, if the report is to be verbose. -/
def describe (report : Report) (verbose : Bool) (line : String) : Report :=
  if verbose then { report with lines := report.lines ++ [line] } else report

/-- Add up one more allocated block. -/
def addAllocated (report : Report) (size : Nat) : Report :=
  { report with usage :=
    { report.usage with
      allocatedBlocks := report.usage.allocatedBlocks + 1
      allocatedSize := report.usage.allocatedSize + size } }

/-- Add up one more free block. -/
def addFree (report : Report) (size : Nat) : Report :=
  { report with usage :=
    { report.usage with
      freeBlocks := report.usage.freeBlocks + 1
      freeSize := report.usage.freeSize + size } }

/-- Report on a prologue with these tags. -/
def scanPrologue (report : Report) (verbose : Bool) (start : Nat) (header footer : Tag) : Report :=
  let report := if header.decode ≠ (overhead, true) ∨ header ≠ footer then
      report.problem (fun tally => { tally with badPrologue := tally.badPrologue + 1 })
        (Anomaly.badPrologue header).render
    else report
  report.describe verbose (Note.block start header footer).render

/-- Report on a block with these tags, given whether the block before it is free. -/
def scanBlock (report : Report) (verbose afterFree : Bool) (bp : Nat) (header footer : Tag) :
    Report :=
  let report := report.describe verbose (Note.block bp header footer).render
  let report := if bp % alignment ≠ 0 then
      report.problem (fun tally => { tally with misaligned := tally.misaligned + 1 })
        (Anomaly.misaligned bp).render
    else report
  let report := if header ≠ footer then
      report.problem (fun tally => { tally with tagMismatches := tally.tagMismatches + 1 })
        (Anomaly.tagMismatch bp header footer).render
    else report
  if header.allocated then report.addAllocated header.size
  else
    let report := if afterFree then
        report.problem (fun tally => { tally with adjacentFree := tally.adjacentFree + 1 })
          (Anomaly.adjacentFree bp).render
      else report
    report.addFree header.size

/-- Report on a free block, given the blocks that the free list reaches. -/
def scanFree (listed : List Nat) (report : Report) (bp : Nat) : Report :=
  if bp ∉ listed then
    report.problem (fun tally => { tally with unlistedFree := tally.unlistedFree + 1 })
      (Anomaly.unlistedFree bp).render
  else report

/-- Report on the count of a free list with this many entries. -/
def scanCount (report : Report) (count walked : Nat) : Report :=
  if count ≠ walked then
    report.problem (fun tally => { tally with countMismatch := tally.countMismatch + 1 })
      (Anomaly.countMismatch count walked).render
  else report

end Report

/-- What a scan has of the chain of blocks: the report so far, the free blocks in the order of their
addresses, where the chain ends, and whether it leaves the heap there. -/
structure ChainScan where
  report : Report
  free : List Nat
  bp : Nat
  overran : Bool

/-- What a scan has of the free list: the report so far, the free blocks that were visited, and the
number of entries. -/
structure LinkScan where
  report : Report
  listed : List Nat
  walked : Nat

variable {σ : Type}

namespace Heap

/-- Scan the chain of blocks from `bp` on, given the free blocks so far and whether the last block
is one of them. -/
def scanChain (heap : Heap σ) (verbose : Bool) (bp : Nat) (afterFree : Bool) (free : List Nat)
    (report : Report) : Except Fault ChainScan :=
  if _hpast : bp > heap.stop then
    .ok {
      report := report.problem (fun tally => { tally with badEpilogue := tally.badEpilogue + 1 })
        (Anomaly.pastEnd bp heap.stop).render
      free, bp, overran := true }
  else do
    let header ← heap.header bp
    if _hzero : header.size = 0 then return { report, free, bp, overran := false }
    if _hover : bp + header.size > heap.stop then
      return {
        report := report.problem (fun tally => { tally with badEpilogue := tally.badEpilogue + 1 })
          (Anomaly.blockPastEnd bp header.size heap.stop).render
        free, bp, overran := true }
    let footer ← heap.footer bp
    heap.scanChain verbose (bp + header.size) (!header.allocated)
      (if header.allocated then free else free ++ [bp])
      (report.scanBlock verbose afterFree bp header footer)
termination_by heap.stop - bp

/-- Report on the end of a chain that did not leave the heap. -/
def scanEnd (heap : Heap σ) (verbose : Bool) (chain : ChainScan) : Except Fault Report :=
  if chain.overran then .ok chain.report
  else do
    let report := chain.report.describe verbose (Note.endOfChain chain.bp).render
    let header ← heap.header chain.bp
    if chain.bp ≠ heap.stop ∨ header.decode ≠ (0, true) then
      return report.problem (fun tally => { tally with badEpilogue := tally.badEpilogue + 1 })
        (Anomaly.badEpilogue chain.bp).render
    else return report

/-- Scan the chain of blocks and its end, which leads to the free blocks and the report. -/
def scanBlocks (heap : Heap σ) (verbose : Bool) (bp : Nat) (afterFree : Bool) (free : List Nat)
    (report : Report) : Except Fault (List Nat × Report) := do
  let chain ← heap.scanChain verbose bp afterFree free report
  let report ← heap.scanEnd verbose chain
  return (chain.free, report)

/-- Scan the free list from `link` on, given the free blocks, those visited already, the number of
entries so far and the entry before. -/
def scanLinks (heap : Heap σ) (free listed : List Nat) (walked : Nat) (before link : Option Nat)
    (report : Report) : Except Fault LinkScan :=
  match link with
  | none => .ok { report, listed, walked }
  | some bp =>
      if _hendless : walked > free.length then
        .ok {
          report := report.problem
            (fun tally => { tally with brokenLinks := tally.brokenLinks + 1 })
            (Anomaly.endlessList bp).render
          listed, walked }
      else if bp ∉ free then
        .ok {
          report := report.problem
            (fun tally => { tally with listedNotFree := tally.listedNotFree + 1 })
            (Anomaly.listedNotFree bp).render
          listed, walked := walked + 1 }
      else if bp ∈ listed then
        .ok {
          report := report.problem
            (fun tally => { tally with brokenLinks := tally.brokenLinks + 1 })
            (Anomaly.visitedTwice bp).render
          listed, walked := walked + 1 }
      else do
        let found ← heap.predecessor bp
        let report := if found ≠ before then
            report.problem (fun tally => { tally with brokenLinks := tally.brokenLinks + 1 })
              (Anomaly.wrongPredecessor bp found before).render
          else report
        let next ← heap.successor bp
        heap.scanLinks free (bp :: listed) (walked + 1) (some bp) next report
termination_by free.length + 1 - walked

/-- Scan the free list from its head, given the free blocks, and report on those that it does not
reach and on its count. -/
def scanList (heap : Heap σ) (free : List Nat) (report : Report) : Except Fault Report := do
  let links ← heap.scanLinks free [] 0 none heap.free.head report
  return (free.foldl (Report.scanFree links.listed) links.report).scanCount heap.free.count
    links.walked

/-- Audit the heap in one pass. -/
def scan (heap : Heap σ) (verbose : Bool) : Except Fault Report := do
  let report : Report := ⟨{}, ⟨heap.stop, 0, 0, 0, 0⟩, []⟩
  let report := report.describe verbose (Note.heading heap.start).render
  let header ← heap.header heap.start
  let footer ← heap.footer heap.start
  let report := report.scanPrologue verbose heap.start header footer
  let (free, report) ← heap.scanBlocks verbose (heap.start + overhead) false [] report
  heap.scanList free report

end Heap

end BoundaryTag
