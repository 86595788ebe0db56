import BoundaryTag.Audit.Scan
import BoundaryTag.Proofs.Audit.Corruption

/-!
# A scan reports what an audit reports

Everything that a scan does to its report is adding findings and blocks to it: `Report.extend` is
the one form to which each of its steps is brought, and two additions are one
(`Report.extend_extend`). So the report of a scan is always the one that it started with, extended
by what an audit has collected so far. This carries over the chain of blocks
(`Heap.scanBlocks_eq`) and over the free list (`Heap.scanList_eq`), and leads to
`Heap.scan_eq_audit`: counting and writing line by line ends like collecting first and reporting
afterwards, faults included.
-/

namespace BoundaryTag

variable {σ : Type} {heap : Heap σ} {report : Report} {verbose afterFree : Bool}
  {entries : List Entry} {sightings : List Sighting} {free listed : List Nat}

/-! ## Adding to a report -/

/-- The statistics with one more block. -/
def Usage.add (usage : Usage) (sighting : Sighting) : Usage :=
  if sighting.isFree then
    { usage with
      freeBlocks := usage.freeBlocks + 1
      freeSize := usage.freeSize + sighting.header.size }
  else
    { usage with
      allocatedBlocks := usage.allocatedBlocks + 1
      allocatedSize := usage.allocatedSize + sighting.header.size }

/-- Adding up the blocks one by one leads to their statistics. -/
theorem Usage.foldl_add (heapSize : Nat) (sightings : List Sighting) :
    sightings.foldl add ⟨heapSize, 0, 0, 0, 0⟩ = ofSightings heapSize sightings := by
  induction sightings using List.reverseRecOn with
  | nil => rfl
  | append_singleton sightings last ih =>
      have happend : ∀ blocks others : List Block,
          Block.totalSize (blocks ++ others) = Block.totalSize blocks + Block.totalSize others := by
        intro blocks others
        induction blocks with
        | nil => exact (Nat.zero_add _).symm
        | cons block blocks ih => rw [List.cons_append, Block.totalSize, Block.totalSize, ih,
            Nat.add_assoc]
      rw [List.foldl_append, ih, ofSightings_eq, ofSightings_eq]
      cases hallocated : last.header.allocated <;>
        simp [ofBlocks, add, Sighting.isFree, Sighting.block, hallocated, happend, Block.totalSize]

namespace Report

/-- The report with more findings and more blocks. -/
def extend (report : Report) (verbose : Bool) (entries : List Entry) (sightings : List Sighting) :
    Report where
  tally := (anomaliesOf entries).foldl Tally.record report.tally
  usage := sightings.foldl Usage.add report.usage
  lines := report.lines ++
    (entries.filter fun entry => verbose || entry.isAnomaly).map (·.render)

theorem extend_extend (report : Report) (verbose : Bool) (entries others : List Entry)
    (sightings rest : List Sighting) :
    (report.extend verbose entries sightings).extend verbose others rest =
      report.extend verbose (entries ++ others) (sightings ++ rest) := by
  simp only [extend, anomaliesOf_append, List.foldl_append, List.filter_append, List.map_append,
    List.append_assoc]

theorem extend_nil (report : Report) (verbose : Bool) : report.extend verbose [] [] = report := by
  simp [extend, anomaliesOf]

/-- What is added to a blank report is a report on all of it. -/
theorem extend_blank (heapSize : Nat) (verbose : Bool) (entries : List Entry)
    (sightings : List Sighting) :
    (⟨{}, ⟨heapSize, 0, 0, 0, 0⟩, []⟩ : Report).extend verbose entries sightings =
      (Findings.mk entries (.ofSightings heapSize sightings)).report verbose := by
  rw [extend, Usage.foldl_add, List.nil_append]
  rfl

/-- Raising the counter of an anomaly and writing its line is reporting it. -/
theorem problem_eq (report : Report) (verbose : Bool) (found : Anomaly) :
    report.problem (·.record found) found.render =
      report.extend verbose [.anomaly found] [] := by
  simp [problem, extend, anomaliesOf, Entry.anomaly?, Entry.isAnomaly, Entry.render]

theorem describe_eq (report : Report) (verbose : Bool) (seen : Note) :
    report.describe verbose seen.render = report.extend verbose [.note seen] [] := by
  cases verbose <;> simp [describe, extend, anomaliesOf, Entry.anomaly?, Entry.isAnomaly,
    Entry.render]

theorem problem_ite (report : Report) (verbose : Bool) (found : Anomaly) (wrong : Prop)
    [Decidable wrong] :
    (if wrong then report.problem (·.record found) found.render else report) =
      report.extend verbose (if wrong then [.anomaly found] else []) [] := by
  split
  · exact report.problem_eq verbose found
  · exact (report.extend_nil verbose).symm

theorem scanPrologue_eq (start : Nat) (header footer : Tag) :
    report.scanPrologue verbose start header footer =
      report.extend verbose (prologueEntries start header footer) [] := by
  have hproblem := report.problem_ite verbose (.badPrologue header)
    (header.decode ≠ (overhead, true) ∨ header ≠ footer)
  rw [scanPrologue, describe_eq]
  exact (congrArg (extend · verbose _ []) hproblem).trans (extend_extend ..)

/-- Adding up an allocated block. -/
theorem addAllocated_eq (report : Report) (verbose : Bool) {sighting : Sighting}
    (hallocated : sighting.header.allocated = true) :
    report.addAllocated sighting.header.size = report.extend verbose [] [sighting] := by
  simp [addAllocated, extend, anomaliesOf, Usage.add, Sighting.isFree, hallocated]

/-- Adding up a free block. -/
theorem addFree_eq (report : Report) (verbose : Bool) {sighting : Sighting}
    (hfree : sighting.header.allocated = false) :
    report.addFree sighting.header.size = report.extend verbose [] [sighting] := by
  simp [addFree, extend, anomaliesOf, Usage.add, Sighting.isFree, hfree]

/-- A block is reported on with all that is wrong with it, and added up. -/
theorem scanBlock_eq (report : Report) (verbose afterFree : Bool) (sighting : Sighting) :
    report.scanBlock verbose afterFree sighting.bp sighting.header sighting.footer =
      report.extend verbose (sighting.entries afterFree) [sighting] := by
  have hmisaligned := fun report : Report =>
    report.problem_ite verbose (.misaligned sighting.bp) (sighting.bp % alignment ≠ 0)
  have hmismatch := fun report : Report => report.problem_ite verbose
    (.tagMismatch sighting.bp sighting.header sighting.footer) (sighting.header ≠ sighting.footer)
  have hadjacent := fun report : Report =>
    report.problem_ite verbose (.adjacentFree sighting.bp) (afterFree = true)
  unfold scanBlock
  dsimp only [Tally.record] at hmisaligned hmismatch hadjacent ⊢
  rw [describe_eq, hmisaligned, hmismatch, hadjacent, Sighting.entries, Sighting.anomalies]
  cases hallocated : sighting.header.allocated with
  | true =>
      rw [if_pos rfl, addAllocated_eq _ verbose hallocated]
      simp [extend_extend, Sighting.isFree, hallocated, apply_ite (List.map _)]
  | false =>
      rw [if_neg Bool.false_ne_true, addFree_eq _ verbose hallocated]
      simp [extend_extend, Sighting.isFree, hallocated, apply_ite (List.map _)]

/-- Free blocks that the list does not reach are reported in the order of their addresses. -/
theorem foldl_scanFree (report : Report) (verbose : Bool) (free listed : List Nat) :
    free.foldl (scanFree listed) report =
      report.extend verbose ((free.filter (· ∉ listed)).map fun bp => .anomaly (.unlistedFree bp))
        [] := by
  induction free generalizing report with
  | nil => exact (report.extend_nil verbose).symm
  | cons bp free ih =>
      have hproblem : scanFree listed report bp = _ :=
        report.problem_ite verbose (.unlistedFree bp) (bp ∉ listed)
      rw [List.foldl_cons, ih, hproblem, extend_extend]
      by_cases hlisted : bp ∈ listed <;> simp [hlisted]

end Report

/-- What is reported on after the free list was followed: the report so far, the number of entries,
and the free blocks that were not visited. -/
def LinkScan.view (free : List Nat) (links : LinkScan) : Report × Nat × List Nat :=
  (links.report, links.walked, free.filter (· ∉ links.listed))

namespace Heap

/-! ## The chain of blocks -/

/-- The end of a chain that did not leave the heap is reported on by its header. -/
theorem scanEnd_of_header {bp : Nat} {header : Tag} (hheader : heap.header bp = .ok header) :
    heap.scanEnd verbose ⟨report, free, bp, false⟩ =
      .ok (report.extend verbose ((ChainEnd.zeroSize bp header).entries heap.stop) []) := by
  have hproblem := (report.describe verbose (Note.endOfChain bp).render).problem_ite verbose
    (.badEpilogue bp) (bp ≠ heap.stop ∨ header.decode ≠ (0, true))
  have hdescribe := report.describe_eq verbose (.endOfChain bp)
  have hsplit : heap.scanEnd verbose ⟨report, free, bp, false⟩ = .ok
      (if bp ≠ heap.stop ∨ header.decode ≠ (0, true) then
        (report.describe verbose (Note.endOfChain bp).render).problem
          (·.record (.badEpilogue bp)) (Anomaly.badEpilogue bp).render
      else report.describe verbose (Note.endOfChain bp).render) := by
    rw [scanEnd, if_neg Bool.false_ne_true, hheader, ok_bind]
    split <;> rfl
  rw [hsplit, hproblem, hdescribe, Report.extend_extend]
  rfl

/-- Where the chain leaves the heap, nothing is reported but this. -/
theorem scanEnd_of_overran (heap : Heap σ) (verbose : Bool) (bp : Nat) (found : Anomaly)
    (free : List Nat) (report : Report) :
    (do
      let report ← heap.scanEnd verbose
        ⟨report.problem (·.record found) found.render, free, bp, true⟩
      return (free, report)) =
      Except.ok (free ++ [], report.extend verbose [.anomaly found] []) := by
  rw [List.append_nil, ← report.problem_eq verbose found]
  rfl

/-- Scanning the chain from a block on reports on what a survey from there sees. -/
theorem scanBlocks_eq (heap : Heap σ) (verbose : Bool) (bp : Nat) (afterFree : Bool)
    (free : List Nat) (report : Report) :
    heap.scanBlocks verbose bp afterFree free report =
      (heap.surveyFrom bp).map fun survey => (free ++ survey.freeBlocks,
        report.extend verbose
          (chainEntries afterFree survey.sightings ++ survey.chainEnd.entries heap.stop)
          survey.sightings) := by
  -- every block that is seen takes both walks closer to the end of the heap
  induction hleft : heap.stop - bp using Nat.strong_induction_on
    generalizing bp afterFree free report with
  | _ left ih =>
      rw [scanBlocks, scanChain, surveyFrom]
      by_cases hpast : bp > heap.stop
      · rw [dif_pos hpast, dif_pos hpast]
        exact heap.scanEnd_of_overran verbose bp (.pastEnd bp heap.stop) free report
      · rw [dif_neg hpast, dif_neg hpast]
        cases hheader : heap.header bp with
        | error cause => rfl
        | ok header =>
            rw [ok_bind, ok_bind]
            by_cases hzero : header.size = 0
            · rw [dif_pos hzero, dif_pos hzero]
              show (heap.scanEnd verbose ⟨report, free, bp, false⟩ >>= _) = _
              rw [scanEnd_of_header hheader]
              show Except.ok (free, _) = Except.ok (free ++ [], _)
              rw [List.append_nil]
              rfl
            · rw [dif_neg hzero, dif_neg hzero]
              by_cases hover : bp + header.size > heap.stop
              · rw [dif_pos hover, dif_pos hover]
                exact heap.scanEnd_of_overran verbose bp
                  (.blockPastEnd bp header.size heap.stop) free report
              · rw [dif_neg hover, dif_neg hover]
                cases hfooter : heap.footer bp with
                | error cause => rfl
                | ok footer =>
                    rw [ok_bind, ok_bind]
                    have hblock := report.scanBlock_eq verbose afterFree ⟨bp, header, footer⟩
                    have hrest := ih (heap.stop - (bp + header.size)) (by omega)
                      (bp + header.size) (!header.allocated)
                      (if header.allocated then free else free ++ [bp])
                      (report.scanBlock verbose afterFree bp header footer) rfl
                    rw [scanBlocks] at hrest
                    rw [hrest, hblock]
                    cases heap.surveyFrom (bp + header.size) with
                    | error cause => rfl
                    | ok rest =>
                        show Except.ok (_ ++ _, _) = Except.ok (free ++ Survey.freeBlocks _, _)
                        rw [Report.extend_extend]
                        cases hallocated : header.allocated <;>
                          simp [chainEntries, Survey.freeBlocks, Sighting.isFree, hallocated]

/-! ## The free list -/

/-- Entries that are not free, or were visited before, are not missing among the free blocks. -/
theorem filter_unvisited {visited : List Nat} (h : ∀ bp ∈ free, bp ∉ listed → bp ∉ visited) :
    free.filter (· ∉ listed) = free.filter fun bp => bp ∉ listed ∧ bp ∉ visited :=
  List.filter_congr fun bp hbp => decide_eq_decide.2
    ⟨fun hunlisted => ⟨hunlisted, h bp hbp hunlisted⟩, And.left⟩

/-- A visited entry can be counted with those before it or with those after it. -/
theorem filter_visit (bp : Nat) (listed visited : List Nat) :
    (free.filter fun other => other ∉ bp :: listed ∧ other ∉ visited) =
      free.filter fun other => other ∉ listed ∧ other ∉ bp :: visited := by
  refine List.filter_congr fun other _ => decide_eq_decide.2 ?_
  simp only [List.mem_cons, not_or]
  tauto

/-- What is wrong with the link back of an entry is reported before what is wrong with those behind
it. -/
theorem extend_visit (report : Report) (verbose : Bool) (bp : Nat) (found before : Option Nat)
    (anomalies : List Anomaly) :
    (report.extend verbose
        (if found ≠ before then [.anomaly (.wrongPredecessor bp found before)] else []) []).extend
      verbose (anomalies.map .anomaly) [] =
      report.extend verbose
        (((if found ≠ before then [Anomaly.wrongPredecessor bp found before] else []) ++
          anomalies).map .anomaly) [] := by
  rw [Report.extend_extend, List.map_append, apply_ite (List.map _)]
  rfl

/-- A walk over the list that ends at once reports on what it finds there. -/
theorem view_of_end {walked : Nat} (anomalies : List Anomaly) (visited : List Nat)
    {result : Report} (hreport : result = report.extend verbose (anomalies.map .anomaly) [])
    (hvisited : ∀ bp ∈ free, bp ∉ listed → bp ∉ visited) :
    (Except.ok ⟨result, listed, walked + visited.length⟩ : Except Fault LinkScan).map
        (LinkScan.view free) =
      (Except.ok ⟨anomalies, visited⟩ : Except Fault ListCheck).map fun check =>
        (report.extend verbose (check.anomalies.map .anomaly) [], walked + check.visited.length,
          free.filter fun bp => bp ∉ listed ∧ bp ∉ check.visited) := by
  rw [hreport]
  show Except.ok (_, _, _) = Except.ok (_, _, _)
  rw [filter_unvisited hvisited]

/-- Following the links reports on what a check of them finds, and visits what it visits. -/
theorem scanLinks_eq (heap : Heap σ) (verbose : Bool) (free listed : List Nat) (walked budget : Nat)
    (before link : Option Nat) (report : Report) (hbudget : walked + budget = free.length + 1) :
    (heap.scanLinks free listed walked before link report).map (LinkScan.view free) =
      (heap.checkLinks free budget listed before link).map fun check =>
        (report.extend verbose (check.anomalies.map .anomaly) [], walked + check.visited.length,
          free.filter fun bp => bp ∉ listed ∧ bp ∉ check.visited) := by
  induction budget generalizing listed walked before link report with
  | zero =>
      cases link with
      | none =>
          rw [scanLinks, checkLinks]
          exact view_of_end [] [] (report.extend_nil verbose).symm fun _ _ _ => List.not_mem_nil
      | some bp =>
          rw [scanLinks, checkLinks, dif_pos (by omega)]
          exact view_of_end [.endlessList bp] [] (report.problem_eq verbose (.endlessList bp))
            fun _ _ _ => List.not_mem_nil
  | succ budget ih =>
      cases link with
      | none =>
          rw [scanLinks, checkLinks]
          exact view_of_end [] [] (report.extend_nil verbose).symm fun _ _ _ => List.not_mem_nil
      | some bp =>
          rw [scanLinks, checkLinks, dif_neg (by omega)]
          by_cases hfree : bp ∉ free
          · rw [if_pos hfree, if_pos hfree]
            refine view_of_end [.listedNotFree bp] [bp]
              (report.problem_eq verbose (.listedNotFree bp)) ?_
            intro other hother _ hsame
            exact hfree (List.mem_singleton.1 hsame ▸ hother)
          · rw [if_neg hfree, if_neg hfree]
            by_cases hlisted : bp ∈ listed
            · rw [if_pos hlisted, if_pos hlisted]
              refine view_of_end [.visitedTwice bp] [bp]
                (report.problem_eq verbose (.visitedTwice bp)) ?_
              intro other _ hunlisted hsame
              exact hunlisted (List.mem_singleton.1 hsame ▸ hlisted)
            · rw [if_neg hlisted, if_neg hlisted]
              cases heap.predecessor bp with
              | error cause => rfl
              | ok found =>
                  cases heap.successor bp with
                  | error cause => rfl
                  | ok next =>
                      have hwrong := report.problem_ite verbose (.wrongPredecessor bp found before)
                        (found ≠ before)
                      dsimp only [Tally.record] at hwrong
                      rw [ok_bind, ok_bind, ok_bind, ok_bind, hwrong,
                        ih (bp :: listed) (walked + 1) (some bp) next _ (by omega)]
                      cases heap.checkLinks free budget (bp :: listed) (some bp) next with
                      | error cause => rfl
                      | ok rest =>
                          show Except.ok (_, _, _) = Except.ok (_, _, _)
                          rw [extend_visit, filter_visit, List.length_cons, Nat.add_assoc,
                            Nat.add_comm 1]

/-- After the links were followed, only what was missed and the number of entries matter. -/
theorem scanList_eq_view (heap : Heap σ) (verbose : Bool) (free : List Nat) (report : Report) :
    heap.scanList free report =
      ((heap.scanLinks free [] 0 none heap.free.head report).map (LinkScan.view free)).map
        fun found => (found.1.extend verbose
          (found.2.2.map fun bp => .anomaly (.unlistedFree bp)) []).scanCount heap.free.count
            found.2.1 := by
  rw [scanList]
  cases heap.scanLinks free [] 0 none heap.free.head report with
  | error cause => rfl
  | ok links =>
      show Except.ok _ = Except.ok _
      rw [Report.foldl_scanFree _ verbose]
      rfl

/-- Scanning the free list reports on what a check of it finds. -/
theorem scanList_eq (heap : Heap σ) (verbose : Bool) (free : List Nat) (report : Report) :
    heap.scanList free report = (heap.checkList free).map fun check =>
      report.extend verbose ((check.allAnomalies free heap.free.count).map .anomaly) [] := by
  have hlinks := heap.scanLinks_eq verbose free [] 0 (free.length + 1) none heap.free.head report
    (Nat.zero_add _)
  rw [heap.scanList_eq_view verbose, hlinks, checkList]
  cases heap.checkLinks free (free.length + 1) [] none heap.free.head with
  | error cause => rfl
  | ok check =>
      have hcount := fun report : Report => report.problem_ite verbose
        (.countMismatch heap.free.count check.visited.length)
        (heap.free.count ≠ check.visited.length)
      have hmissing : (free.filter fun bp => bp ∉ ([] : List Nat) ∧ bp ∉ check.visited) =
          free.filter (· ∉ check.visited) := by simp
      dsimp only [Tally.record] at hcount
      show Except.ok _ = Except.ok (report.extend verbose _ [])
      dsimp only
      rw [hmissing, Nat.zero_add, Report.scanCount, hcount, Report.extend_extend,
        Report.extend_extend, ListCheck.allAnomalies, List.map_append, List.map_append,
        List.map_map, apply_ite (List.map _), List.append_assoc]
      rfl

/-- A scan reports exactly what an audit reports, or faults as it does. -/
theorem scan_eq_audit (heap : Heap σ) (verbose : Bool) :
    heap.scan verbose = heap.audit verbose := by
  rw [scan, audit, examine, survey]
  cases heap.header heap.start with
  | error cause => rfl
  | ok header =>
      cases heap.footer heap.start with
      | error cause => rfl
      | ok footer =>
          simp only [ok_bind, Report.describe_eq, Report.scanPrologue_eq, scanBlocks_eq,
            Report.extend_extend]
          cases heap.surveyFrom (heap.start + overhead) with
          | error cause => rfl
          | ok survey =>
              show heap.scanList survey.freeBlocks _ = _
              rw [scanList_eq heap verbose, ok_bind]
              cases heap.checkList survey.freeBlocks with
              | error cause => rfl
              | ok check =>
                  show Except.ok _ = Except.ok (Findings.report _ verbose)
                  dsimp only
                  rw [Report.extend_extend, Report.extend_blank]
                  simp only [List.append_nil, List.nil_append]
                  rfl

end Heap

end BoundaryTag
