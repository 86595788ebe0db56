import BoundaryTag.Audit.Report
import BoundaryTag.Heap.Lemmas
import BoundaryTag.Heap.WellFormed
import BoundaryTag.Proofs.Layout.Chain

/-!
# What a survey says of any memory

A survey reads headers of which nothing is known, so it has to be said what it sees whatever the
bytes are. `Heap.exists_surveyFrom` says that it always ends, that the blocks it saw follow each
other inside of the heap, and why it went no further. `Heap.surveyFrom_of_tiles` is the other
direction: where the tags spell a chain of blocks, a survey sees this chain. The statistics of an
audit only depend on the blocks that were seen (`Usage.ofSightings_eq`).
-/

namespace BoundaryTag

variable {σ : Type} {heap : Heap σ} {bp first : Nat} {rest : List Block}

/-- The block that a sighting tells of, according to its header. -/
def Sighting.block (sighting : Sighting) : Block :=
  ⟨sighting.bp, sighting.header.size, sighting.header.allocated⟩

/-- What there is to see of a block in a memory. -/
def Memory.sighting (memory : Memory) (block : Block) : Sighting :=
  ⟨block.address, memory.tag (block.address - wordSize), memory.tag (block.stop - overhead)⟩

/-- A block with a readable header is seen as what its tags say. -/
theorem Memory.Tagged.block_sighting {memory : Memory} {block : Block} (h : memory.Tagged block) :
    (memory.sighting block).block = block := by
  have hheader := h.header
  rw [Tag.decode, Prod.mk.injEq] at hheader
  show Block.mk block.address (memory.tag (block.address - wordSize)).size
    (memory.tag (block.address - wordSize)).allocated = block
  rw [hheader.1, hheader.2]

/-- Blocks with readable headers are seen as what their tags say. -/
theorem Memory.map_block_sighting {memory : Memory} {blocks : List Block}
    (h : ∀ block ∈ blocks, memory.Tagged block) :
    (blocks.map memory.sighting).map Sighting.block = blocks := by
  rw [List.map_map]
  exact (List.map_congr_left fun block hblock => (h block hblock).block_sighting).trans
    (List.map_id' _)

/-- The free blocks of a survey are those of the blocks that it tells of. -/
theorem Survey.freeBlocks_eq (survey : Survey) :
    survey.freeBlocks = freeAddresses (survey.sightings.map Sighting.block) := by
  rw [freeBlocks, freeAddresses, List.filter_map, List.map_map]
  rfl

/-! ## Statistics -/

namespace Usage

/-- The statistics of a heap of this size with these blocks. -/
def ofBlocks (heapSize : Nat) (blocks : List Block) : Usage where
  heapSize
  allocatedBlocks := (blocks.filter (·.allocated)).length
  allocatedSize := Block.totalSize (blocks.filter (·.allocated))
  freeBlocks := (blocks.filter (!·.allocated)).length
  freeSize := Block.totalSize (blocks.filter (!·.allocated))

theorem totalSize_eq (sightings : List Sighting) :
    totalSize sightings = Block.totalSize (sightings.map Sighting.block) := by
  induction sightings with
  | nil => rfl
  | cons sighting sightings ih =>
      rw [totalSize, ih]
      rfl

/-- Every block is counted once. -/
theorem ofBlocks_sum (heapSize : Nat) (blocks : List Block) :
    (ofBlocks heapSize blocks).allocatedSize + (ofBlocks heapSize blocks).freeSize =
      Block.totalSize blocks := by
  induction blocks with
  | nil => rfl
  | cons block blocks ih =>
      simp only [ofBlocks] at ih ⊢
      cases hallocated : block.allocated <;> simp [hallocated, Block.totalSize] <;> omega

/-- The statistics only depend on the blocks that the headers tell of. -/
theorem ofSightings_eq (heapSize : Nat) (sightings : List Sighting) :
    ofSightings heapSize sightings = ofBlocks heapSize (sightings.map Sighting.block) := by
  have hfree : sightings.partition (·.isFree) =
      (sightings.filter (·.isFree), sightings.filter (!·.isFree)) :=
    List.partition_eq_filter_filter ..
  have hallocated : (fun sighting : Sighting => !sighting.isFree) =
      (·.allocated) ∘ Sighting.block := funext fun sighting => Bool.not_not _
  rw [ofSightings, hfree, hallocated]
  simp only [ofBlocks, totalSize_eq, List.filter_map, List.length_map]
  rfl

end Usage

/-! ## Seeing the blocks -/

namespace Heap

/-- The sighting shows the tags of a block that is not empty and lies inside of the heap. -/
structure Shows (heap : Heap σ) (sighting : Sighting) : Prop where
  seen : heap.memory.sighting sighting.block = sighting
  low : wordSize ≤ sighting.bp
  size_pos : 0 < sighting.header.size
  stop_le : sighting.block.stop ≤ heap.stop

/-- Why a chain of blocks ends at this address. -/
def EndsAt (heap : Heap σ) (last : Nat) : ChainEnd → Prop
  | .zeroSize bp header =>
      bp = last ∧ last ≤ heap.stop ∧ header = heap.memory.tag (last - wordSize) ∧ header.size = 0
  | .pastEnd bp => bp = last ∧ heap.stop < last
  | .blockPastEnd bp size =>
      bp = last ∧ last ≤ heap.stop ∧ size = (heap.memory.tag (last - wordSize)).size ∧
        heap.stop < last + size

/-- The footer that a header inside the memory leads to can be read. -/
theorem footer_of_le {header : Tag} (hheader : heap.header bp = .ok header)
    (hsize : 8 ≤ bp + header.size) (hend : bp + header.size ≤ heap.memory.size + 4)
    (hspace : bp + header.size < addressSpace) :
    heap.footer bp = .ok (heap.memory.tag (bp + header.size - overhead)) := by
  have hoffset : heap.footerOffset bp = .ok (bp + header.size - overhead) := by
    rw [footerOffset, blockSize_of_header hheader, ok_bind, Address.add_of_lt hspace]
    exact Address.sub_of_le hsize
  rw [footer, hoffset, ok_bind]
  exact tagAt_of_le (by simp only [overhead, wordSize]; omega)

/-- A survey ends whatever the bytes are. The blocks that it saw fill the heap up to the place where
it stopped. -/
theorem exists_surveyFrom (heap : Heap σ) (hspace : heap.stop < addressSpace) {bp : Nat}
    (hlow : wordSize ≤ bp) :
    ∃ survey last, heap.surveyFrom bp = .ok survey ∧
      Consecutive bp (survey.sightings.map Sighting.block) last ∧
      (∀ sighting ∈ survey.sightings, heap.Shows sighting) ∧
      heap.EndsAt last survey.chainEnd := by
  have hstop : heap.stop = heap.memory.size := rfl
  -- every block that is seen takes the survey closer to the end of the heap
  induction hleft : heap.stop - bp using Nat.strong_induction_on generalizing bp with
  | _ left ih =>
      rw [surveyFrom]
      by_cases hpast : bp > heap.stop
      · rw [dif_pos hpast]
        exact ⟨_, bp, rfl, rfl, by simp, rfl, hpast⟩
      · rw [dif_neg hpast]
        have hinside : bp ≤ heap.stop := Nat.le_of_not_lt hpast
        have hheader : heap.header bp = .ok (heap.memory.tag (bp - wordSize)) :=
          header_of_le hlow hinside
        rw [hheader, ok_bind]
        by_cases hzero : (heap.memory.tag (bp - wordSize)).size = 0
        · rw [dif_pos hzero]
          exact ⟨_, bp, rfl, rfl, by simp, rfl, hinside, rfl, hzero⟩
        · rw [dif_neg hzero]
          by_cases hover : bp + (heap.memory.tag (bp - wordSize)).size > heap.stop
          · rw [dif_pos hover]
            exact ⟨_, bp, rfl, rfl, by simp, rfl, hinside, rfl, hover⟩
          · rw [dif_neg hover]
            have haligned := (heap.memory.tag (bp - wordSize)).size_mod
            have hfooter := footer_of_le hheader (by omega) (by omega) (by omega)
            obtain ⟨survey, last, hrest, hconsecutive, hshows, hends⟩ :=
              ih (heap.stop - (bp + (heap.memory.tag (bp - wordSize)).size)) (by omega)
                (Nat.le_add_right_of_le hlow) rfl
            rw [hfooter, ok_bind, hrest]
            refine ⟨_, last, rfl, ⟨rfl, hconsecutive⟩, List.forall_mem_cons.2 ⟨?_, hshows⟩, hends⟩
            exact ⟨rfl, hlow, Nat.pos_of_ne_zero hzero, Nat.le_of_not_lt hover⟩

/-- Where the tags spell a chain of blocks that ends with the heap, a survey sees this chain. -/
theorem surveyFrom_of_tiles (hspace : heap.stop < addressSpace) (hlow : wordSize ≤ first)
    (htiles : Tiles first rest heap.stop) (htagged : ∀ block ∈ rest, heap.memory.Tagged block)
    (hepilogue : (heap.memory.tag (heap.stop - wordSize)).size = 0) :
    heap.surveyFrom first = .ok ⟨rest.map heap.memory.sighting,
      .zeroSize heap.stop (heap.memory.tag (heap.stop - wordSize))⟩ := by
  have hstop : heap.stop = heap.memory.size := rfl
  induction rest generalizing first with
  | nil =>
      obtain rfl := tiles_nil.1 htiles
      rw [surveyFrom, dif_neg (Nat.lt_irrefl _), header_of_le hlow (Nat.le_refl _), ok_bind]
      exact dif_pos hepilogue
  | cons block rest ih =>
      rw [List.forall_mem_cons] at htagged
      obtain ⟨rfl, hpos, hrest⟩ := tiles_cons.1 htiles
      have hend := hrest.first_le_stop
      have hblockStop : block.stop = block.address + block.size := rfl
      have hheader : heap.header block.address =
          .ok (heap.memory.tag (block.address - wordSize)) := header_of_le hlow (by omega)
      have hsize : (heap.memory.tag (block.address - wordSize)).size = block.size :=
        congrArg Prod.fst htagged.1.header
      have haligned := (heap.memory.tag (block.address - wordSize)).size_mod
      have hfooter := footer_of_le hheader (by omega) (by omega) (by omega)
      have hnext := ih (show wordSize ≤ block.stop by omega) hrest htagged.2
      rw [surveyFrom, dif_neg (by omega), hheader, ok_bind, dif_neg (by omega),
        dif_neg (by omega), hfooter, ok_bind, hsize, ← hblockStop, hnext]
      rfl

end Heap

end BoundaryTag
