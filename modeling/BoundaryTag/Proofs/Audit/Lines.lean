import BoundaryTag.Proofs.Audit.Scan

/-!
# The lines of a report

A verbose report tells what a short one tells, and describes what was seen besides. Read
`Heap.Described` first: it says how the two reports of a heap differ, down to the lines.
`Heap.described_of_audit` says it of every heap on which an audit ends, whatever the bytes, the head
of the free list and its count are. Nothing else is said of the heap, so this is also true of a scan
that counts and writes as it goes (`Heap.scan_eq_audit`).
-/

namespace BoundaryTag

variable {σ : Type} {heap : Heap σ} {survey : Survey} {start stop : Nat} {header footer : Tag}
  {report : Report} {verbose : Bool}

/-! ## Notes among the entries -/

/-- The note of an entry, if it is one. -/
def Entry.note? : Entry → Option Note
  | .note seen => some seen
  | .anomaly _ => none

/-- The notes among some entries. -/
def notesOf (entries : List Entry) : List Note := entries.filterMap (·.note?)

@[simp] theorem notesOf_append (entries others : List Entry) :
    notesOf (entries ++ others) = notesOf entries ++ notesOf others :=
  List.filterMap_append

@[simp] theorem notesOf_note (seen : Note) (entries : List Entry) :
    notesOf (.note seen :: entries) = seen :: notesOf entries := rfl

@[simp] theorem notesOf_map (anomalies : List Anomaly) :
    notesOf (anomalies.map .anomaly) = [] := by
  rw [notesOf, List.filterMap_map]
  exact List.filterMap_eq_nil_iff.2 fun _ _ => rfl

/-- Every entry is an anomaly or a note. -/
theorem perm_anomalies_notes (entries : List Entry) :
    (entries.map (·.render)).Perm ((entries.filter (·.isAnomaly)).map (·.render) ++
      (notesOf entries).map (·.render)) := by
  induction entries with
  | nil => exact .nil
  | cons entry entries ih =>
      cases entry with
      | anomaly found => exact ih.cons found.render
      | note seen => exact (ih.cons seen.render).trans List.perm_middle.symm

/-! ## What is described -/

/-- Whether the chain leaves the heap. -/
def ChainEnd.overran : ChainEnd → Bool
  | .zeroSize .. => false
  | .pastEnd _ | .blockPastEnd .. => true

/-- What a verbose report says of the end of a chain. -/
def ChainEnd.notes : ChainEnd → List Note
  | .zeroSize bp _ => [.endOfChain bp]
  | .pastEnd _ | .blockPastEnd .. => []

/-- What a verbose report says of a block. -/
def Sighting.note (sighting : Sighting) : Note :=
  .block sighting.bp sighting.header sighting.footer

/-- What a verbose report describes: the start of the heap, the prologue, all blocks that were seen
and the end of the chain. -/
def Survey.notes (survey : Survey) (start : Nat) (header footer : Tag) : List Note :=
  .heading start :: .block start header footer ::
    (survey.sightings.map (·.note) ++ survey.chainEnd.notes)

theorem notesOf_prologueEntries :
    notesOf (prologueEntries start header footer) = [.block start header footer] := by
  rw [prologueEntries]
  split <;> rfl

theorem notesOf_chainEntries (afterFree : Bool) (sightings : List Sighting) :
    notesOf (chainEntries afterFree sightings) = sightings.map (·.note) := by
  induction sightings generalizing afterFree with
  | nil => rfl
  | cons sighting sightings ih =>
      rw [chainEntries, notesOf_append, ih, Sighting.entries, notesOf_note, notesOf_map]
      rfl

theorem notesOf_chainEnd (chainEnd : ChainEnd) :
    notesOf (chainEnd.entries stop) = chainEnd.notes := by
  cases chainEnd with
  | zeroSize bp header =>
      rw [ChainEnd.entries]
      split <;> rfl
  | pastEnd bp => rfl
  | blockPastEnd bp size => rfl

/-- Two lines on the heap and its prologue, one on each block, and one on the end of a chain that
does not leave the heap. -/
theorem Survey.length_notes (survey : Survey) (start : Nat) (header footer : Tag) :
    (survey.notes start header footer).length =
      2 + survey.sightings.length + if survey.chainEnd.overran then 0 else 1 := by
  have hend : survey.chainEnd.notes.length = if survey.chainEnd.overran then 0 else 1 := by
    cases survey.chainEnd <;> rfl
  rw [notes, List.length_cons, List.length_cons, List.length_append, List.length_map, hend]
  omega

/-! ## Two reports -/

namespace Heap

/-- These are the reports of an audit, a short and a verbose one, and of a scan. They agree in what
they count. The short one has the line of each anomaly that is counted, in the order in which it is
found. The verbose one has these lines in the same order, and besides nothing but one line for each
thing that is described. -/
structure Described (heap : Heap σ) (short long : Report) : Prop where
  audit_short : heap.audit false = .ok short
  audit_long : heap.audit true = .ok long
  scan_short : heap.scan false = .ok short
  scan_long : heap.scan true = .ok long
  tally_eq : long.tally = short.tally
  usage_eq : long.usage = short.usage
  lines_short : ∃ anomalies, short.tally = .ofAnomalies anomalies ∧
    short.lines = anomalies.map Anomaly.render
  lines_sublist : short.lines.Sublist long.lines
  length_short : short.lines.length = short.tally.total
  lines_eq_nil_iff : short.lines = [] ↔ short.tally.isClear = true
  described : ∃ header footer survey, heap.header heap.start = .ok header ∧
    heap.footer heap.start = .ok footer ∧ heap.survey = .ok survey ∧
    long.lines.Perm
      (short.lines ++ (survey.notes heap.start header footer).map (·.render)) ∧
    long.lines.length = short.lines.length + 2 + survey.sightings.length +
      if survey.chainEnd.overran then 0 else 1

/-- An audit that ends describes what it read. -/
theorem exists_notes {findings : Findings} (h : heap.examine = .ok findings) :
    ∃ header footer survey, heap.header heap.start = .ok header ∧
      heap.footer heap.start = .ok footer ∧ heap.survey = .ok survey ∧
      notesOf findings.entries = survey.notes heap.start header footer := by
  rw [examine] at h
  obtain ⟨header, hheader, h⟩ := exists_of_bind_eq_ok h
  obtain ⟨footer, hfooter, h⟩ := exists_of_bind_eq_ok h
  obtain ⟨survey, hsurvey, h⟩ := exists_of_bind_eq_ok h
  obtain ⟨check, -, h⟩ := exists_of_bind_eq_ok h
  obtain rfl := Except.ok.inj h
  refine ⟨header, footer, survey, hheader, hfooter, hsurvey, ?_⟩
  dsimp only
  rw [List.cons_append, List.cons_append, notesOf_note, notesOf_append, notesOf_append,
    notesOf_map, notesOf_prologueEntries, Survey.entries, notesOf_append, notesOf_chainEntries,
    notesOf_chainEnd, List.append_nil]
  rfl

/-- Whatever the bytes, the head and the count of the free list are: an audit that ends in one mode
ends in both, with reports that differ in their notes only. -/
theorem described_of_audit (h : heap.audit verbose = .ok report) :
    ∃ short long, heap.Described short long ∧ report = if verbose then long else short := by
  rw [audit] at h
  obtain ⟨findings, hexamine, hreport⟩ := exists_of_bind_eq_ok h
  have haudit : ∀ verbose, heap.audit verbose = .ok (findings.report verbose) := by
    intro verbose
    rw [audit, hexamine]
    rfl
  obtain ⟨header, footer, survey, hheader, hfooter, hsurvey, hnotes⟩ := exists_notes hexamine
  have hlong : (findings.report true).lines = findings.entries.map (·.render) :=
    congrArg (List.map _) (List.filter_true _)
  have hperm : (findings.report true).lines.Perm ((findings.report false).lines ++
      (survey.notes heap.start header footer).map (·.render)) := by
    rw [hlong, ← hnotes]
    exact perm_anomalies_notes findings.entries
  refine ⟨findings.report false, findings.report true, ?_, ?_⟩
  · constructor
    case audit_short => exact haudit false
    case audit_long => exact haudit true
    case scan_short => exact (heap.scan_eq_audit false).trans (haudit false)
    case scan_long => exact (heap.scan_eq_audit true).trans (haudit true)
    case tally_eq => rfl
    case usage_eq => rfl
    case lines_short => exact ⟨findings.anomalies, rfl, findings.lines_report⟩
    case lines_sublist => exact findings.lines_report_sublist
    case length_short => exact findings.length_lines_report
    case lines_eq_nil_iff =>
      rw [Tally.isClear_iff_total, ← findings.length_lines_report, List.length_eq_zero_iff]
    case described =>
      refine ⟨header, footer, survey, hheader, hfooter, hsurvey, hperm, ?_⟩
      rw [hperm.length_eq, List.length_append, List.length_map, Survey.length_notes]
      omega
  · obtain rfl := Except.ok.inj hreport
    cases verbose <;> rfl

end Heap

/-- A heap of which two tags, the head of the free list and its count were overwritten: one line for
each of eight anomalies, and eight more in the verbose report. -/
theorem Client.described_of_overwritten_heap : ∃ (client : Client Bounded) (short long : Report),
    Reachable ⟨64, 32⟩ (Bounded.region 200) client ∧
      ({ client.heap.withMemory ((client.heap.memory.setWord 12 16).setWord 28 16) with
        free := ⟨some 48, 7⟩ } : Heap Bounded).Described short long ∧
      short.lines.length = 8 ∧ long.lines.length = 16 := by
  have hseen : (session ⟨64, 32⟩ (Bounded.region 200) [.allocate 24, .allocate 24, .allocate 24,
      .release 16]).map (fun (_, _, client) => (({ client.heap.withMemory
        ((client.heap.memory.setWord 12 16).setWord 28 16) with
        free := ⟨some 48, 7⟩ } : Heap Bounded).audit true).toOption.map fun report =>
          (report.tally.total, report.lines.length)) = some (some (8, 16)) := by
    decide +kernel
  obtain ⟨heap, turns, client, hcreate, hrun, hview⟩ := exists_of_session hseen
  obtain ⟨report, hreport, hcounts⟩ := Option.map_eq_some_iff.1 hview
  obtain ⟨htotal, hlines⟩ := Prod.mk.inj hcounts
  obtain ⟨short, long, hdescribed, hverbose⟩ := Heap.described_of_audit (eq_ok_of_toOption hreport)
  have hlong : report = long := hverbose
  subst hlong
  refine ⟨client, short, report, ⟨heap, turns, hcreate, hrun⟩, hdescribed, ?_, hlines⟩
  rw [hdescribed.length_short, ← hdescribed.tally_eq]
  exact htotal

end BoundaryTag
