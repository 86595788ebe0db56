import BoundaryTag.Client.Session
import BoundaryTag.Proofs.Audit.Verdict
import BoundaryTag.Provider.Bounded

/-!
# Auditing a corrupted heap

Once its bytes have been overwritten, nothing is known of a heap but where it starts and how long it
is. The two walks of an audit look before they read: a block that does not end inside of the heap is
not looked at, and links are read from blocks only that a survey saw. The tags of the prologue are
read without looking first, so an audit reports on every heap but those in which the header of the
prologue leads to a footer outside of the memory: `Client.reports_of_corrupted`.
-/

namespace BoundaryTag

variable {σ ε : Type} {settings : Settings} {region : Region σ} {client : Client σ}
  {heap : Heap σ}

/-! ## Counting and describing -/

namespace Findings

variable (findings : Findings)

/-- The lines of the short report are those of the anomalies that it counts. -/
theorem lines_report :
    (findings.report false).lines = findings.anomalies.map Anomaly.render := by
  show (findings.entries.filter (·.isAnomaly)).map (·.render) =
    (findings.entries.filterMap (·.anomaly?)).map Anomaly.render
  induction findings.entries with
  | nil => rfl
  | cons entry entries ih =>
      cases entry with
      | anomaly found => exact congrArg (found.render :: ·) ih
      | note seen => exact ih

/-- The short report has a line for each anomaly that it counts. -/
theorem length_lines_report :
    (findings.report false).lines.length = (findings.report false).tally.total := by
  rw [lines_report, List.length_map]
  exact (Tally.total_ofAnomalies findings.anomalies).symm

/-- The verbose report has the lines of the short one and some more. -/
theorem lines_report_sublist :
    (findings.report false).lines.Sublist (findings.report true).lines := by
  refine List.Sublist.map _ ?_
  show (findings.entries.filter _).Sublist (findings.entries.filter fun _ => true)
  rw [List.filter_true]
  exact List.filter_sublist

end Findings

namespace Heap

/-! ## What an audit reads -/

/-- The footer that the header of the prologue leads to lies inside of the memory. -/
def PrologueInside (heap : Heap σ) : Prop :=
  ∃ offset, heap.footerOffset heap.start = .ok offset ∧ offset + wordSize ≤ heap.stop

/-- Where the footer would be is computed from the header. -/
instance PrologueInside.decidable (heap : Heap σ) : Decidable heap.PrologueInside :=
  match hoffset : heap.footerOffset heap.start with
  | .ok offset =>
      decidable_of_iff (offset + wordSize ≤ heap.stop)
        ⟨fun hend => ⟨offset, hoffset, hend⟩, fun ⟨_, hother, hend⟩ =>
          Except.ok.inj (hoffset.symm.trans hother) ▸ hend⟩
  | .error _ => .isFalse fun ⟨_, hother, _⟩ => nomatch hoffset.symm.trans hother

/-- Everything that an audit reads can be read, and nothing is wrong with it. -/
def LooksClean (heap : Heap σ) : Prop :=
  ∃ header footer survey check, heap.header heap.start = .ok header ∧
    heap.footer heap.start = .ok footer ∧ heap.survey = .ok survey ∧
    heap.checkList survey.freeBlocks = .ok check ∧ heap.Clean header footer survey check

/-- An audit of the heap ends with these reports, a short and a verbose one. They count whatever is
wrong with what the audit reads. Every anomaly that is counted has a line in the short report, and
all of these lines are in the verbose one. -/
structure Reports (heap : Heap σ) (short verbose : Report) : Prop where
  audit_short : heap.audit false = .ok short
  audit_verbose : heap.audit true = .ok verbose
  summary_eq : heap.summary = .ok (short.tally, short.usage)
  tally_eq : verbose.tally = short.tally
  usage_eq : verbose.usage = short.usage
  isClear_iff : short.tally.isClear = true ↔ heap.LooksClean
  total_eq : short.lines.length = short.tally.total
  lines_sublist : short.lines.Sublist verbose.lines

/-- An audit of the heap faults, in both modes. -/
structure AuditFaults (heap : Heap σ) (cause : Fault) : Prop where
  audit (verbose : Bool) : heap.audit verbose = .error cause
  summary : heap.summary = .error cause

section Bounds

variable (hlow : overhead ≤ heap.start) (hroom : heap.start + overhead ≤ heap.stop)
  (hlimit : heap.stop ≤ heapLimit)

include hlow hroom hlimit

/-- The header of the prologue is always there, and says where the footer is. -/
theorem footerOffset_start : heap.header heap.start =
      .ok (heap.memory.tag (heap.start - wordSize)) ∧
    heap.footerOffset heap.start =
      .ok (heap.start + (heap.memory.tag (heap.start - wordSize)).size - overhead) := by
  have hfits := (heap.memory.tag (heap.start - wordSize)).size_lt
  have hstop : heap.stop = heap.memory.size := rfl
  simp only [overhead, wordSize, heapLimit] at hlow hroom hlimit
  have hheader : heap.header heap.start = .ok (heap.memory.tag (heap.start - wordSize)) :=
    header_of_le (by omega) (by omega)
  refine ⟨hheader, ?_⟩
  rw [footerOffset, blockSize_of_header hheader, ok_bind,
    Address.add_of_lt (by simp only [addressSpace]; omega), ok_bind]
  exact Address.sub_of_le (by simp only [overhead, wordSize]; omega)

/-- Without a footer of the prologue to read, an audit stops there. -/
theorem auditFaults_of_outside (houtside : ¬ heap.PrologueInside) :
    heap.AuditFaults .outOfBounds := by
  obtain ⟨hheader, hoffset⟩ := footerOffset_start hlow hroom hlimit
  have hbeyond : ¬ heap.start + (heap.memory.tag (heap.start - wordSize)).size - overhead +
      wordSize ≤ heap.memory.size := fun hinside => houtside ⟨_, hoffset, hinside⟩
  have hfooter : heap.footer heap.start = .error .outOfBounds := by
    rw [footer, hoffset, ok_bind, tagAt, wordAt, if_neg hbeyond]
    rfl
  have hexamine : heap.examine = .error .outOfBounds := by
    rw [examine, hheader, ok_bind, hfooter]
    rfl
  constructor
  case audit =>
    intro verbose
    rw [Heap.audit, hexamine]
    rfl
  case summary =>
    rw [Heap.summary, Heap.audit, hexamine]
    rfl

/-- With the footer of the prologue inside of the memory, an audit ends whatever else the bytes
are. -/
theorem exists_reports (hinside : heap.PrologueInside) :
    ∃ short verbose, heap.Reports short verbose := by
  obtain ⟨hheader, -⟩ := footerOffset_start hlow hroom hlimit
  obtain ⟨offset, hoffset, hend⟩ := hinside
  have hfooter : heap.footer heap.start = .ok (heap.memory.tag offset) := by
    rw [footer, hoffset, ok_bind]
    exact tagAt_of_le hend
  have hspace : heap.stop < addressSpace := by
    simp only [heapLimit, addressSpace] at hlimit ⊢
    omega
  have hfirst : wordSize ≤ heap.start + overhead := by
    simp only [overhead, wordSize]
    omega
  obtain ⟨survey, last, hsurvey, -, hshows, -⟩ := heap.exists_surveyFrom hspace hfirst
  obtain ⟨check, hcheck⟩ := exists_checkLinks (inside_of_shows hshows)
    (survey.freeBlocks.length + 1) [] none heap.free.head
  obtain ⟨findings, hexamine, -, hclean⟩ := examine_of_parts hheader hfooter hsurvey hcheck
  have haudit : ∀ verbose, heap.audit verbose = .ok (findings.report verbose) := by
    intro verbose
    rw [audit, hexamine]
    rfl
  refine ⟨findings.report false, findings.report true, ?_⟩
  constructor
  case audit_short => exact haudit false
  case audit_verbose => exact haudit true
  case summary_eq =>
    rw [summary, haudit false]
    rfl
  case tally_eq => rfl
  case usage_eq => rfl
  case isClear_iff =>
    show (Tally.ofAnomalies findings.anomalies).isClear = true ↔ _
    rw [Tally.isClear_ofAnomalies, hclean]
    constructor
    · intro h
      exact ⟨_, _, _, _, hheader, hfooter, hsurvey, hcheck, h⟩
    · rintro ⟨header, footer, other, visits, hfirst, hsecond, hthird, hfourth, h⟩
      obtain rfl := Except.ok.inj (hheader.symm.trans hfirst)
      obtain rfl := Except.ok.inj (hfooter.symm.trans hsecond)
      obtain rfl := Except.ok.inj (hsurvey.symm.trans hthird)
      obtain rfl := Except.ok.inj (hcheck.symm.trans hfourth)
      exact h
  case total_eq => exact findings.length_lines_report
  case lines_sublist => exact findings.lines_report_sublist

end Bounds

end Heap

namespace Client

variable [Provider σ ε] [LawfulProvider σ]

/-- Whatever bytes the memory of a heap is overwritten with, an audit ends with a report on it,
unless the header of the prologue leads to a footer outside of the memory. Only then, it faults. -/
theorem reports_of_corrupted (hreach : Reachable settings region client) (memory : Memory)
    (hsize : memory.size = client.heap.stop) :
    ((client.heap.withMemory memory).PrologueInside →
        ∃ short verbose, (client.heap.withMemory memory).Reports short verbose) ∧
      (¬ (client.heap.withMemory memory).PrologueInside →
        (client.heap.withMemory memory).AuditFaults .outOfBounds) := by
  obtain ⟨layout, htracks⟩ := hreach.exists_tracks
  have hlow : overhead ≤ (client.heap.withMemory memory).start := htracks.sound.eight_le_start
  have hstop : (client.heap.withMemory memory).stop = client.heap.memory.size := hsize
  have hroom : (client.heap.withMemory memory).start + overhead ≤
      (client.heap.withMemory memory).stop := by
    rw [hstop]
    exact htracks.sound.start_le
  have hlimit : (client.heap.withMemory memory).stop ≤ heapLimit := by
    rw [hstop]
    exact htracks.sound.stop_le
  exact ⟨Heap.exists_reports hlow hroom hlimit, Heap.auditFaults_of_outside hlow hroom hlimit⟩

/-- A block that leads into its own payload and a free block that ends outside of the heap are
reported, and so is a prologue that is too long. One that ends outside of the heap is not. -/
theorem reports_of_overwritten_session : ∃ client : Client Bounded,
    Reachable ⟨64, 32⟩ (Bounded.region 200) client ∧ client.live = [16] ∧
      (∃ short verbose, (client.heap.withMemory
        ((client.heap.memory.setWord 12 17).setWord 28 1000)).Reports short verbose) ∧
      (∃ short verbose,
        (client.heap.withMemory (client.heap.memory.setWord 4 16)).Reports short verbose) ∧
      (client.heap.withMemory (client.heap.memory.setWord 4 1000)).AuditFaults .outOfBounds := by
  have hseen : (session ⟨64, 32⟩ (Bounded.region 200) [.allocate 24]).map
      (fun (_, _, client) => (client.live,
        decide (client.heap.withMemory
          ((client.heap.memory.setWord 12 17).setWord 28 1000)).PrologueInside,
        decide (client.heap.withMemory (client.heap.memory.setWord 4 16)).PrologueInside,
        decide (client.heap.withMemory (client.heap.memory.setWord 4 1000)).PrologueInside)) =
      some ([16], true, true, false) := by
    decide +kernel
  obtain ⟨heap, turns, client, hcreate, hrun, hview⟩ := exists_of_session hseen
  simp only [Prod.mk.injEq, decide_eq_true_eq, decide_eq_false_iff_not] at hview
  obtain ⟨hlive, hblocks, hprologue, houtside⟩ := hview
  have hreach : Reachable ⟨64, 32⟩ (Bounded.region 200) client := ⟨heap, turns, hcreate, hrun⟩
  have hsize : ∀ address word, (client.heap.memory.setWord address word).size =
      client.heap.stop := fun address word => Memory.size_setWord ..
  exact ⟨client, hreach, hlive,
    (reports_of_corrupted hreach _ ((Memory.size_setWord ..).trans (hsize ..))).1 hblocks,
    (reports_of_corrupted hreach _ (hsize ..)).1 hprologue,
    (reports_of_corrupted hreach _ (hsize ..)).2 houtside⟩

/-- In a new heap with the standard settings, the largest size in the header of the prologue makes
an audit fault. -/
theorem exists_audit_fault : ∃ client : Client Bounded,
    Reachable .standard (Bounded.region 0x4_0000) client ∧
      ∃ memory, memory = client.heap.memory.setWord 4 0xffff_fff8 ∧
        memory.size = client.heap.stop ∧
        (∀ verbose, (client.heap.withMemory memory).audit verbose = .error .outOfBounds) ∧
        (client.heap.withMemory memory).summary = .error .outOfBounds ∧
        ¬ ∃ short verbose, (client.heap.withMemory memory).Reports short verbose := by
  have hseen : (session .standard (Bounded.region 0x4_0000) []).map (fun (_, _, client) =>
      (client.heap.start, client.heap.stop, decide
        (client.heap.withMemory (client.heap.memory.setWord 4 0xffff_fff8)).PrologueInside)) =
      some (8, 4112, false) := by
    decide +kernel
  obtain ⟨heap, turns, client, hcreate, hrun, hview⟩ := exists_of_session hseen
  simp only [Prod.mk.injEq, decide_eq_false_iff_not] at hview
  obtain ⟨hstart, hstop, houtside⟩ := hview
  have hsize : (client.heap.memory.setWord 4 0xffff_fff8).size = client.heap.stop :=
    Memory.size_setWord ..
  have hfaults : (client.heap.withMemory (client.heap.memory.setWord 4 0xffff_fff8)).AuditFaults
      .outOfBounds := by
    refine Heap.auditFaults_of_outside (show 8 ≤ client.heap.start by omega) ?_ ?_ houtside
    · show client.heap.start + 8 ≤ (client.heap.memory.setWord 4 0xffff_fff8).size
      omega
    · show (client.heap.memory.setWord 4 0xffff_fff8).size ≤ 0xffff_ffff
      omega
  refine ⟨client, ⟨heap, turns, hcreate, hrun⟩, _, rfl, hsize, hfaults.audit, hfaults.summary, ?_⟩
  rintro ⟨short, verbose, hreports⟩
  cases (hfaults.audit false).symm.trans hreports.audit_short

end Client

end BoundaryTag
