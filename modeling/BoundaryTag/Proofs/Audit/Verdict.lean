import BoundaryTag.Proofs.Audit.ListCheck
import BoundaryTag.Proofs.Audit.Survey
import BoundaryTag.Proofs.Client.Refinement
import BoundaryTag.Proofs.Heap.Walks

/-!
# The verdict of an audit

An audit looks at the tags, at the blocks and at the links one after the other, and gives up on each
of them at the first thing that makes no sense. `Heap.isClear_audit_iff` says that nothing slips
through and nothing is rejected for no reason: whatever the bytes are, there are no anomalies
exactly when the heap represents a layout of aligned blocks.
-/

namespace BoundaryTag

variable {σ : Type} {heap : Heap σ} {layout : Layout} {start stop : Nat} {header footer : Tag}

/-! ## Anomalies among the entries -/

/-- The anomalies among some entries. -/
def anomaliesOf (entries : List Entry) : List Anomaly := entries.filterMap (·.anomaly?)

@[simp] theorem anomaliesOf_append (entries others : List Entry) :
    anomaliesOf (entries ++ others) = anomaliesOf entries ++ anomaliesOf others :=
  List.filterMap_append

@[simp] theorem anomaliesOf_note (seen : Note) (entries : List Entry) :
    anomaliesOf (.note seen :: entries) = anomaliesOf entries := rfl

@[simp] theorem anomaliesOf_map (anomalies : List Anomaly) :
    anomaliesOf (anomalies.map .anomaly) = anomalies := by
  rw [anomaliesOf, List.filterMap_map]
  exact List.filterMap_some

/-- A tally is clear when there is nothing to count. -/
theorem Tally.isClear_ofAnomalies {anomalies : List Anomaly} :
    (Tally.ofAnomalies anomalies).isClear = true ↔ anomalies = [] := by
  rw [isClear_iff_total, total_ofAnomalies, List.length_eq_zero_iff]

theorem anomaliesOf_prologueEntries :
    anomaliesOf (prologueEntries start header footer) = [] ↔
      header.decode = (overhead, true) ∧ header = footer := by
  rw [prologueEntries]
  by_cases hwrong : header.decode ≠ (overhead, true) ∨ header ≠ footer
  · rw [if_pos hwrong]
    constructor
    · intro hnone
      exact nomatch hnone
    · intro hgood
      exact absurd hgood (not_and_or.2 hwrong)
  · rw [if_neg hwrong]
    rw [not_or, not_not, not_not] at hwrong
    exact ⟨fun _ => hwrong, fun _ => rfl⟩

/-- There is nothing to report on the end of a chain when it is an epilogue at the end of the
heap. -/
theorem anomaliesOf_chainEnd {chainEnd : ChainEnd} :
    anomaliesOf (chainEnd.entries stop) = [] ↔
      ∃ header : Tag, chainEnd = .zeroSize stop header ∧ header.decode = (0, true) := by
  cases chainEnd with
  | zeroSize bp header =>
      by_cases hgood : bp = stop ∧ header.decode = (0, true)
      · obtain ⟨rfl, hdecode⟩ := hgood
        simp [ChainEnd.entries, anomaliesOf, Entry.anomaly?, hdecode]
      · have hwrong : bp ≠ stop ∨ header.decode ≠ (0, true) := by rwa [← not_and_or]
        rw [ChainEnd.entries, if_pos hwrong]
        simp only [anomaliesOf, List.filterMap_cons, Entry.anomaly?, reduceCtorEq, false_iff,
          ChainEnd.zeroSize.injEq]
        rintro ⟨_, ⟨rfl, rfl⟩, hdecode⟩
        exact hgood ⟨rfl, hdecode⟩
  | pastEnd bp => simp [ChainEnd.entries, anomaliesOf, Entry.anomaly?]
  | blockPastEnd bp size => simp [ChainEnd.entries, anomaliesOf, Entry.anomaly?]

/-- There is nothing to report on a block that is aligned, has equal tags, and is not free behind a
free one. -/
theorem Sighting.anomalies_eq_nil_iff {sighting : Sighting} {afterFree : Bool} :
    sighting.anomalies afterFree = [] ↔
      (sighting.bp % alignment = 0 ∧ sighting.header = sighting.footer) ∧
        (afterFree = true → sighting.block.allocated = true) := by
  rw [anomalies, List.append_eq_nil_iff, List.append_eq_nil_iff]
  cases afterFree <;> simp [isFree, Sighting.block]

/-- There is nothing to report on a chain in which this holds of every block. -/
theorem anomaliesOf_chainEntries {afterFree : Bool} {sightings : List Sighting} :
    anomaliesOf (chainEntries afterFree sightings) = [] ↔
      (∀ sighting ∈ sightings, sighting.bp % alignment = 0 ∧ sighting.header = sighting.footer) ∧
        (∀ block ∈ (sightings.map Sighting.block).head?,
          afterFree = true → block.allocated = true) ∧
        (sightings.map Sighting.block).IsChain Block.Apart := by
  induction sightings generalizing afterFree with
  | nil => simp [chainEntries, anomaliesOf]
  | cons sighting sightings ih =>
      have happly : anomaliesOf (sighting.entries afterFree) = sighting.anomalies afterFree := by
        rw [Sighting.entries, anomaliesOf_note, anomaliesOf_map]
      have hapart : ∀ block : Block, sighting.block.Apart block ↔
          (sighting.isFree = true → block.allocated = true) := by
        intro block
        simp only [Block.Apart, Sighting.isFree, Sighting.block]
        cases sighting.header.allocated <;> simp
      rw [chainEntries, anomaliesOf_append, List.append_eq_nil_iff, happly, ih,
        Sighting.anomalies_eq_nil_iff, List.forall_mem_cons, List.map_cons, List.isChain_cons,
        List.head?_cons]
      simp only [hapart, Option.mem_some_iff, forall_eq']
      tauto

/-! ## The verdict -/

namespace Heap

/-- Nothing is wrong with what an audit saw: the two tags of the prologue, the blocks of the chain,
and the entries of the free list. -/
structure Clean (heap : Heap σ) (header footer : Tag) (survey : Survey) (check : ListCheck) :
    Prop where
  prologue : header.decode = (overhead, true) ∧ header = footer
  sightings : ∀ sighting ∈ survey.sightings,
    sighting.bp % alignment = 0 ∧ sighting.header = sighting.footer
  apart : (survey.sightings.map Sighting.block).IsChain Block.Apart
  chainEnd : ∃ tag : Tag, survey.chainEnd = .zeroSize heap.stop tag ∧ tag.decode = (0, true)
  links : check.anomalies = []
  listed : ∀ bp ∈ survey.freeBlocks, bp ∈ check.visited
  count_eq : heap.free.count = check.visited.length

variable {survey : Survey} {check : ListCheck} {last : Nat}

/-- An audit reports on the parts that it looked at, and finds no anomaly exactly when they are
clean. -/
theorem examine_of_parts (hheader : heap.header heap.start = .ok header)
    (hfooter : heap.footer heap.start = .ok footer) (hsurvey : heap.survey = .ok survey)
    (hcheck : heap.checkList survey.freeBlocks = .ok check) :
    ∃ findings, heap.examine = .ok findings ∧
      findings.usage = .ofSightings heap.stop survey.sightings ∧
      (findings.anomalies = [] ↔ heap.Clean header footer survey check) := by
  refine ⟨_, by rw [examine, hheader, ok_bind, hfooter, ok_bind, hsurvey, ok_bind, hcheck]; rfl,
    rfl, ?_⟩
  show anomaliesOf (_ :: _ ++ _ ++ _) = [] ↔ _
  rw [List.cons_append, List.cons_append, anomaliesOf_note, anomaliesOf_append, anomaliesOf_append,
    anomaliesOf_map, Survey.entries, anomaliesOf_append]
  simp only [List.append_eq_nil_iff, anomaliesOf_prologueEntries, anomaliesOf_chainEntries,
    anomaliesOf_chainEnd, ListCheck.allAnomalies_eq_nil_iff]
  constructor
  · rintro ⟨⟨hprologue, ⟨hsightings, -, hapart⟩, hend⟩, hlinks, hlisted, hcount⟩
    exact ⟨hprologue, hsightings, hapart, hend, hlinks, hlisted, hcount⟩
  · rintro ⟨hprologue, hsightings, hapart, hend, hlinks, hlisted, hcount⟩
    exact ⟨⟨hprologue, ⟨hsightings, by simp, hapart⟩, hend⟩, hlinks, hlisted, hcount⟩

/-- The links of a free block that a survey saw lie inside of the memory. -/
theorem inside_of_shows (hshows : ∀ sighting ∈ survey.sightings, heap.Shows sighting) :
    ∀ bp ∈ survey.freeBlocks, bp + 8 ≤ heap.memory.size := by
  intro bp hbp
  obtain ⟨sighting, hsighting, rfl⟩ := List.mem_map.1 hbp
  obtain ⟨-, -, hpos, hend⟩ := hshows sighting (List.mem_of_mem_filter hsighting)
  have haligned := sighting.header.size_mod
  have hstop : sighting.block.stop = sighting.bp + sighting.header.size := rfl
  have hsize : heap.stop = heap.memory.size := rfl
  omega

/-- A heap of which only clean parts were seen represents what was seen. -/
theorem Clean.represents (h : heap.Clean header footer survey check)
    (hstart : wordSize ≤ heap.start) (hroom : heap.start + overhead ≤ heap.stop)
    (hspace : heap.stop < addressSpace) (hheader : heap.header heap.start = .ok header)
    (hfooter : heap.footer heap.start = .ok footer)
    (hconsecutive : Consecutive (heap.start + overhead) (survey.sightings.map Sighting.block) last)
    (hshows : ∀ sighting ∈ survey.sightings, heap.Shows sighting)
    (hends : heap.EndsAt last survey.chainEnd)
    (hcheck : heap.checkList survey.freeBlocks = .ok check) :
    heap.Represents ⟨survey.sightings.map Sighting.block, check.visited, heap.stop⟩ := by
  have hsize : heap.stop = heap.memory.size := rfl
  obtain ⟨tag, hchainEnd, hepilogue⟩ := h.chainEnd
  rw [hchainEnd] at hends
  obtain ⟨rfl, -, rfl, -⟩ := hends
  have hcheck : heap.checkLinks survey.freeBlocks (survey.freeBlocks.length + 1) [] none
      heap.free.head = .ok ⟨[], check.visited⟩ := by
    rw [← h.links]
    exact hcheck
  obtain ⟨hlinked, hhead, hnodup, hvisited⟩ :=
    linked_of_checkLinks (inside_of_shows hshows) hcheck
  constructor
  case stop_eq => rfl
  case prologue_tagged =>
    obtain ⟨hdecode, hequal⟩ := h.prologue
    have hword : header = heap.memory.tag (heap.start - wordSize) :=
      Except.ok.inj (hheader.symm.trans (header_of_le hstart (by omega)))
    have hprologueSize : header.size = overhead := congrArg Prod.fst hdecode
    have hfound := footer_of_le hheader (hprologueSize ▸ Nat.le_add_left ..) (by omega) (by omega)
    rw [hprologueSize] at hfound
    constructor
    · show (heap.memory.tag (heap.start - wordSize)).decode = (overhead, true)
      rw [← hword, hdecode]
    · show heap.memory.tag (heap.start + overhead - overhead) =
        heap.memory.tag (heap.start - wordSize)
      rw [← hword, hequal]
      exact (Except.ok.inj (hfooter.symm.trans hfound)).symm
  case consecutive => exact hconsecutive
  case tagged =>
    intro block hblock
    obtain ⟨sighting, hsighting, rfl⟩ := List.mem_map.1 hblock
    have hseen := (hshows sighting hsighting).seen
    have hseenHeader := congrArg Sighting.header hseen
    have hseenFooter := congrArg Sighting.footer hseen
    constructor
    · exact congrArg Tag.decode hseenHeader
    · exact hseenFooter.trans ((h.sightings sighting hsighting).2.symm.trans hseenHeader.symm)
  case size_pos =>
    intro block hblock
    obtain ⟨sighting, hsighting, rfl⟩ := List.mem_map.1 hblock
    exact (hshows sighting hsighting).size_pos
  case epilogue => exact hepilogue
  case apart => exact h.apart
  case order_nodup => exact hnodup
  case mem_order =>
    intro bp
    rw [← Survey.freeBlocks_eq]
    exact ⟨fun hbp => (hvisited bp hbp).1, h.listed bp⟩
  case linked => exact hlinked
  case head_eq => exact hhead
  case count_eq => exact h.count_eq

/-- The two tags of the prologue of a heap that represents a layout are equal. -/
theorem Represents.footer_start (h : heap.Represents layout) (hspace : heap.stop < addressSpace)
    (hstart : wordSize ≤ heap.start) :
    heap.footer heap.start = .ok (heap.memory.tag (heap.start - wordSize)) := by
  have hroom := h.tiles.first_le_stop
  have hsize : layout.stop = heap.memory.size := h.stop_eq
  have hstop : heap.stop = heap.memory.size := rfl
  have hheader : heap.header heap.start = .ok (heap.memory.tag (heap.start - wordSize)) :=
    header_of_le hstart (by omega)
  have hprologue : (heap.memory.tag (heap.start - wordSize)).size = overhead :=
    congrArg Prod.fst h.prologue_tagged.header
  have hfooter := footer_of_le hheader (hprologue ▸ Nat.le_add_left ..) (by omega) (by omega)
  rw [hfooter, hprologue]
  exact congrArg _ h.prologue_tagged.footer

/-- A heap that represents a layout is surveyed as this layout. -/
theorem Represents.survey_eq (h : heap.Represents layout) (hspace : heap.stop < addressSpace)
    (hstart : wordSize ≤ heap.start) :
    heap.survey = .ok ⟨layout.blocks.map heap.memory.sighting,
      .zeroSize heap.stop (heap.memory.tag (heap.stop - wordSize))⟩ := by
  have hepilogue := h.epilogue
  have htiles := h.tiles
  rw [h.stop_eq] at hepilogue htiles
  exact surveyFrom_of_tiles hspace (Nat.le_add_right_of_le hstart) htiles h.tagged
    (congrArg Prod.fst hepilogue)

/-- Following the links of such a heap finds nothing wrong. -/
theorem Represents.checkList_eq (h : heap.Represents layout) :
    heap.checkList (freeAddresses layout.blocks) = .ok ⟨[], layout.order⟩ := by
  have hfree : ∀ bp ∈ layout.order, bp ∈ freeAddresses layout.blocks :=
    fun bp => (h.mem_order bp).1
  refine checkList_of_linked h.linked h.head_eq (fun bp hbp => ?_) hfree h.order_nodup
  obtain ⟨block, hblock, -, rfl⟩ := mem_freeAddresses.1 (hfree bp hbp)
  have hbounds := h.tiles.bounds hblock
  have haligned := (heap.memory.tag (block.address - wordSize)).size_mod
  have hsize : (heap.memory.tag (block.address - wordSize)).size = block.size :=
    congrArg Prod.fst (h.tagged block hblock).header
  have hstop : layout.stop = heap.memory.size := h.stop_eq
  simp only [Block.stop] at hbounds
  omega

/-- An audit of a heap that represents a layout sees clean parts. -/
theorem Represents.clean (h : heap.Represents layout)
    (haligned : ∀ block ∈ layout.blocks, block.address % alignment = 0) :
    heap.Clean (heap.memory.tag (heap.start - wordSize)) (heap.memory.tag (heap.start - wordSize))
      ⟨layout.blocks.map heap.memory.sighting,
        .zeroSize heap.stop (heap.memory.tag (heap.stop - wordSize))⟩ ⟨[], layout.order⟩ where
  prologue := ⟨h.prologue_tagged.header, rfl⟩
  sightings sighting hsighting := by
    obtain ⟨block, hblock, rfl⟩ := List.mem_map.1 hsighting
    exact ⟨haligned block hblock, (h.tagged block hblock).footer.symm⟩
  apart := by
    rw [Memory.map_block_sighting h.tagged]
    exact h.apart
  chainEnd := ⟨_, rfl, h.stop_eq ▸ h.epilogue⟩
  links := rfl
  listed bp hbp := by
    rw [Survey.freeBlocks_eq, Memory.map_block_sighting h.tagged] at hbp
    exact (h.mem_order bp).2 hbp
  count_eq := h.count_eq

/-- The verdict on a heap that represents a layout of aligned blocks is clear, and the statistics
are those of its blocks. -/
theorem Represents.summary_eq (h : heap.Represents layout) (hspace : heap.stop < addressSpace)
    (hstart : wordSize ≤ heap.start)
    (haligned : ∀ block ∈ layout.blocks, block.address % alignment = 0) :
    heap.summary = .ok ({}, .ofBlocks heap.stop layout.blocks) := by
  have hroom := h.tiles.first_le_stop
  have hinside : heap.start ≤ heap.memory.size := by
    have hstop : layout.stop = heap.memory.size := h.stop_eq
    omega
  have hfree := Survey.freeBlocks_eq ⟨layout.blocks.map heap.memory.sighting,
    .zeroSize heap.stop (heap.memory.tag (heap.stop - wordSize))⟩
  have hlist := h.checkList_eq
  rw [← Memory.map_block_sighting h.tagged, ← hfree] at hlist
  obtain ⟨findings, hexamine, husage, hclean⟩ := examine_of_parts (header_of_le hstart hinside)
    (h.footer_start hspace hstart) (h.survey_eq hspace hstart) hlist
  have hnone : findings.anomalies = [] := hclean.2 (h.clean haligned)
  rw [summary, audit, hexamine]
  show Except.ok (Tally.ofAnomalies findings.anomalies, findings.usage) = _
  rw [hnone, husage, Usage.ofSightings_eq, Memory.map_block_sighting h.tagged]
  rfl

/-- Whatever the bytes are, an audit reports, and finds no anomaly exactly when the heap represents
a layout of aligned blocks. The heap has to start at an aligned address that is not zero, and its
prologue has to lead to a footer inside of the memory. -/
theorem isClear_audit_iff (hpos : 0 < heap.start) (hstart : heap.start % alignment = 0)
    (hroom : heap.start + overhead ≤ heap.stop) (hspace : heap.stop < addressSpace)
    (hfooter : ∃ tag, heap.footer heap.start = .ok tag) (verbose : Bool) :
    ∃ report, heap.audit verbose = .ok report ∧
      (report.tally.isClear = true ↔ ∃ layout, heap.Represents layout ∧
        ∀ block ∈ layout.blocks, block.address % alignment = 0) := by
  have hlow : wordSize ≤ heap.start := by
    simp only [wordSize, alignment] at *
    omega
  have hinside : heap.start ≤ heap.memory.size := (Nat.le_add_right _ _).trans hroom
  have hheader : heap.header heap.start = .ok (heap.memory.tag (heap.start - wordSize)) :=
    header_of_le hlow hinside
  obtain ⟨footer, hfooter⟩ := hfooter
  obtain ⟨survey, last, hsurvey, hconsecutive, hshows, hends⟩ :=
    heap.exists_surveyFrom hspace (Nat.le_add_right_of_le hlow)
  obtain ⟨check, hcheck⟩ := exists_checkLinks (inside_of_shows hshows)
    (survey.freeBlocks.length + 1) [] none heap.free.head
  obtain ⟨findings, hexamine, -, hclean⟩ := examine_of_parts hheader hfooter hsurvey hcheck
  refine ⟨findings.report verbose, by rw [audit, hexamine]; rfl, ?_⟩
  show (Tally.ofAnomalies findings.anomalies).isClear = true ↔ _
  rw [Tally.isClear_ofAnomalies, hclean]
  constructor
  · intro h
    refine ⟨_, h.represents hlow hroom hspace hheader hfooter hconsecutive hshows hends hcheck,
      fun block hblock => ?_⟩
    obtain ⟨sighting, hsighting, rfl⟩ := List.mem_map.1 hblock
    exact (h.sightings sighting hsighting).1
  · rintro ⟨layout, hrepresents, haligned⟩
    obtain rfl := Except.ok.inj (hfooter.symm.trans (hrepresents.footer_start hspace hlow))
    obtain rfl := Except.ok.inj (hsurvey.symm.trans (hrepresents.survey_eq hspace hlow))
    replace hcheck := hcheck.symm
    rw [Survey.freeBlocks_eq, Memory.map_block_sighting hrepresents.tagged] at hcheck
    obtain rfl := Except.ok.inj (hcheck.trans hrepresents.checkList_eq)
    exact hrepresents.clean haligned

/-- A heap with an allocated and a free block passes. With a wrong count, it represents nothing. -/
theorem isClear_audit_of_small_session : ∃ heap miscounted : Heap Bounded,
    miscounted = { heap with free.count := 2 } ∧ heap.start = 8 ∧ heap.stop = 80 ∧
      (∃ tag, heap.footer heap.start = .ok tag) ∧
      (∃ report, heap.audit true = .ok report ∧ report.tally.isClear = true ∧
        ∃ layout, heap.Represents layout ∧
          ∀ block ∈ layout.blocks, block.address % alignment = 0) ∧
      ∃ report, miscounted.audit true = .ok report ∧ report.tally.isClear = false ∧
        ¬ ∃ layout, miscounted.Represents layout ∧
          ∀ block ∈ layout.blocks, block.address % alignment = 0 := by
  have hseen : (Client.session ⟨64, 32⟩ (Bounded.region 200) [.allocate 24]).map
      (fun (_, _, client) => (client.heap.start, client.heap.stop,
        (client.heap.footer client.heap.start).toOption,
        (client.heap.audit true).toOption.map (·.tally.isClear),
        (audit { client.heap with free.count := 2 } true).toOption.map (·.tally.isClear))) =
      some (8, 80, some (.ofSize overhead true), some true, some false) := by
    decide +kernel
  obtain ⟨_, _, client, -, -, hview⟩ := Client.exists_of_session hseen
  simp only [Prod.mk.injEq] at hview
  obtain ⟨hstart, hstop, hfooter, hclear, hunclear⟩ := hview
  have hread : ∃ tag, client.heap.footer client.heap.start = .ok tag := by
    cases hfound : client.heap.footer client.heap.start with
    | ok tag => exact ⟨tag, rfl⟩
    | error cause =>
        rw [hfound] at hfooter
        exact nomatch hfooter
  have hpos : 0 < client.heap.start := by omega
  have haligned : client.heap.start % alignment = 0 := by simp [hstart]
  have hroom : client.heap.start + overhead ≤ client.heap.stop := by simp [hstart, hstop]
  have hspace : client.heap.stop < addressSpace := by simp [hstop]
  obtain ⟨report, haudit, hgood⟩ :=
    isClear_audit_iff hpos haligned hroom hspace hread true
  rw [haudit] at hclear
  have hclear : report.tally.isClear = true := Option.some.inj hclear
  let miscounted : Heap Bounded := { client.heap with free.count := 2 }
  obtain ⟨other, hother, hbad⟩ :=
    @isClear_audit_iff Bounded miscounted hpos haligned hroom hspace hread true
  replace hunclear : (miscounted.audit true).toOption.map (·.tally.isClear) = some false := hunclear
  rw [hother] at hunclear
  have hunclear : other.tally.isClear = false := Option.some.inj hunclear
  rw [hunclear] at hbad
  exact ⟨client.heap, miscounted, rfl, hstart, hstop, hread,
    ⟨report, haudit, hclear, hgood.1 hclear⟩, other, hother, hunclear,
    fun hrepresents => nomatch hbad.2 hrepresents⟩

end Heap

end BoundaryTag
