import BoundaryTag.Proofs.Audit.Survey
import BoundaryTag.Proofs.Heap.Walks
import BoundaryTag.Provider.Bounded
import Mathlib.Algebra.Ring.Nat

/-!
# Laying blocks end to end

A heap whose prologue and epilogue are in place can be filled with blocks of any sizes by writing
their tags, in any order and over any bytes. Read `Heap.Tiled` first: the headers lead forward
through exactly these blocks, and the footers lead back through them. `Heap.tiled_of_setTags` says
so of every `Block.row` that fills the heap. Two blocks that stand side by side have their tags four
bytes apart and no byte of them in common (`Tiles.not_inTags`), so no order of writing is better
than another.
-/

namespace BoundaryTag

open HeapM

variable {σ : Type} {heap after : Heap σ} {spans : List (Nat × Bool)} {blocks order : List Block}
  {block other : Block} {first stop bp address : Nat} {header : Tag}

/-! ## Rows -/

/-- Blocks of these sizes and flags, each starting where the one before it ends. -/
def Block.row (first : Nat) : List (Nat × Bool) → List Block
  | [] => []
  | (size, allocated) :: spans => ⟨first, size, allocated⟩ :: row (first + size) spans

/-- A row fills as many bytes as its blocks have together. -/
theorem tiles_row (hpos : ∀ span ∈ spans, 0 < span.1) :
    Tiles first (Block.row first spans) (first + (spans.map Prod.fst).sum) := by
  induction spans generalizing first with
  | nil => exact tiles_nil.2 rfl
  | cons span spans ih =>
      rw [List.forall_mem_cons] at hpos
      rw [List.map_cons, List.sum_cons, ← Nat.add_assoc]
      exact tiles_cons.2 ⟨rfl, hpos.1, ih hpos.2⟩

/-- The blocks of a row have the sizes that were asked for. -/
theorem exists_span_of_mem_row (hblock : block ∈ Block.row first spans) :
    (block.size, block.allocated) ∈ spans := by
  induction spans generalizing first with
  | nil => exact nomatch hblock
  | cons span spans ih =>
      rcases List.mem_cons.1 hblock with rfl | hrest
      · exact List.mem_cons_self
      · exact List.mem_cons_of_mem _ (ih hrest)

/-- Different blocks of a chain have no byte of their tags in common. -/
theorem Tiles.not_inTags (h : Tiles first blocks stop) (hblock : block ∈ blocks)
    (hother : other ∈ blocks) (hne : block ≠ other) (hsize : 8 ≤ block.size)
    (hotherSize : 8 ≤ other.size) (hin : block.InTags address) : ¬ other.InTags address := by
  have hdisjoint := h.disjoint hblock hother hne
  simp only [Block.InTags, Block.stop, overhead, wordSize] at hin hdisjoint ⊢
  omega

/-- The tags of a chain of blocks lie between the first header and the header behind the last
block. -/
theorem Tiles.inTags_bounds (h : Tiles first blocks stop) (hblock : block ∈ blocks)
    (hsize : 8 ≤ block.size) (hin : block.InTags address) :
    first - wordSize ≤ address ∧ address < stop - wordSize := by
  have hbounds := h.bounds hblock
  simp only [Block.InTags, Block.stop, overhead, wordSize] at hin hbounds ⊢
  omega

/-- A block that is not empty has room for two tags. -/
theorem eight_le_of_aligned {size : Nat} (haligned : size % alignment = 0) (hpos : 0 < size) :
    8 ≤ size := Nat.le_of_dvd hpos (Nat.dvd_of_mod_eq_zero haligned)

namespace Heap

/-! ## Walking in both directions -/

/-- The tags of the prologue and of the epilogue say what they should. -/
structure Bracketed (heap : Heap σ) : Prop where
  header_start : (heap.header heap.start).map Tag.decode = .ok (overhead, true)
  footer_start : (heap.footer heap.start).map Tag.decode = .ok (overhead, true)
  header_stop : (heap.header heap.stop).map Tag.decode = .ok (0, true)

/-- Both tags of these blocks say how large they are and whether they are allocated. The headers
lead from the prologue through all of them up to the end of the heap, and the footers lead back. -/
structure Tiled (heap : Heap σ) (blocks : List Block) : Prop extends heap.Bracketed where
  header_eq : ∀ block ∈ blocks,
    (heap.header block.address).map Tag.decode = .ok (block.size, block.allocated)
  footer_eq : ∀ block ∈ blocks,
    (heap.footer block.address).map Tag.decode = .ok (block.size, block.allocated)
  blocks_eq : heap.blocks = .ok (heap.start :: blocks.map (·.address))
  leadsBack : heap.LeadsBack (heap.start :: blocks.map (·.address))

/-- A tag that says something can be read. -/
theorem exists_of_decode {read : Except Fault Tag} {size : Nat} {allocated : Bool}
    (h : read.map Tag.decode = .ok (size, allocated)) :
    ∃ tag : Tag, read = .ok tag ∧ tag.size = size := by
  cases read with
  | error cause => exact nomatch h
  | ok tag => exact ⟨tag, rfl, congrArg Prod.fst (Except.ok.inj h)⟩

/-- A header that can be read is a word of the memory. -/
theorem header_inv (h : heap.header bp = .ok header) :
    wordSize ≤ bp ∧ bp ≤ heap.stop ∧ header = heap.memory.tag (bp - wordSize) := by
  rw [Heap.header] at h
  obtain ⟨offset, hoffset, hread⟩ := exists_of_bind_eq_ok h
  obtain ⟨hlow, rfl⟩ := Address.eq_of_sub hoffset
  rw [tagAt, wordAt] at hread
  split at hread
  next hhigh =>
    refine ⟨hlow, ?_, (Except.ok.inj hread).symm⟩
    show bp ≤ heap.memory.size
    omega
  next => cases hread

/-- A footer of the same size as the header leads from the next block back to this one. -/
theorem blockBefore_of_footer {footer : Tag} (hheader : heap.header bp = .ok header)
    (hfooter : heap.footer bp = .ok footer) (hsize : footer.size = header.size) :
    heap.blockBefore (bp + header.size) = .ok bp := by
  rw [Heap.footer, footerOffset, blockSize_of_header hheader, ok_bind] at hfooter
  obtain ⟨offset, hoffset, hread⟩ := exists_of_bind_eq_ok hfooter
  obtain ⟨next, hnext, hback⟩ := exists_of_bind_eq_ok hoffset
  obtain rfl := Address.eq_of_add hnext
  rw [blockBefore, hback, ok_bind, hread, ok_bind, hsize, Address.sub_of_le (Nat.le_add_left ..),
    Nat.add_sub_cancel]

/-- Where both tags of blocks that fill the heap say what they should, headers and footers lead
through these blocks. -/
theorem Bracketed.tiled (h : heap.Bracketed)
    (htiles : Tiles (heap.start + overhead) blocks heap.stop)
    (hheader : ∀ block ∈ blocks,
      (heap.header block.address).map Tag.decode = .ok (block.size, block.allocated))
    (hfooter : ∀ block ∈ blocks,
      (heap.footer block.address).map Tag.decode = .ok (block.size, block.allocated)) :
    heap.Tiled blocks := by
  have hall : Tiles heap.start (heap.prologue :: blocks) heap.stop :=
    tiles_cons.2 ⟨rfl, (by decide : 0 < overhead), htiles⟩
  have hheaders : ∀ block ∈ heap.prologue :: blocks,
      (heap.header block.address).map Tag.decode = .ok (block.size, block.allocated) :=
    List.forall_mem_cons.2 ⟨h.header_start, hheader⟩
  have hfooters : ∀ block ∈ heap.prologue :: blocks,
      (heap.footer block.address).map Tag.decode = .ok (block.size, block.allocated) :=
    List.forall_mem_cons.2 ⟨h.footer_start, hfooter⟩
  refine ⟨h, hheader, hfooter, ?_, ?_⟩
  · obtain ⟨last, hlast, hempty⟩ := exists_of_decode h.header_stop
    have hend : heap.blockSize heap.stop = .ok 0 := by rw [blockSize_of_header hlast, hempty]
    refine blocksFrom_of_tiles (fun block hblock => ?_) hend hall
    obtain ⟨tag, hread, hsize⟩ := exists_of_decode (hheaders block hblock)
    rw [blockSize_of_header hread, hsize]
  · refine (leadsBack_iff_of_tiles hall).2 fun block hblock => ?_
    obtain ⟨header, hreadHeader, hsize⟩ := exists_of_decode (hheaders block hblock)
    obtain ⟨footer, hreadFooter, hfooterSize⟩ := exists_of_decode (hfooters block hblock)
    have hback := blockBefore_of_footer hreadHeader hreadFooter (hfooterSize.trans hsize.symm)
    rw [hsize] at hback
    exact hback

/-- Both tags of a marked block inside of the heap say its size and its flag. -/
theorem decode_of_marked (h : heap.memory.Marked block) (haligned : block.size % alignment = 0)
    (hlow : 4 ≤ block.address) (hsize : 8 ≤ block.size) (hend : block.stop ≤ heap.stop)
    (hlimit : heap.stop ≤ heapLimit) :
    (heap.header block.address).map Tag.decode = .ok (block.size, block.allocated) ∧
      (heap.footer block.address).map Tag.decode = .ok (block.size, block.allocated) := by
  have hstop : block.stop = block.address + block.size := rfl
  have hinside : heap.memory.size = heap.stop := rfl
  simp only [heapLimit] at hlimit
  have hfits : block.size < 0x1_0000_0000 := by omega
  have hdecode :
      (Tag.ofSize block.size block.allocated).decode = (block.size, block.allocated) := by
    rw [Tag.decode, Tag.size_ofSize haligned hfits, Tag.allocated_ofSize haligned]
  constructor
  · rw [header_of_marked h hlow (by omega), Except.map, hdecode]
  · rw [footer_of_marked h haligned hfits hlow hsize (by omega)
      (by simp only [addressSpace]; omega), Except.map, hdecode]

/-! ## What an edit leaves to read -/

/-- A tag reads the same after an edit that keeps its bytes. -/
theorem Edits.tagAt_eq {changed : Nat → Prop} {offset : Nat} (hedits : heap.Edits after changed)
    (hkept : ∀ address, offset ≤ address → address < offset + wordSize → ¬ changed address) :
    after.tagAt offset = heap.tagAt offset := by
  have hword : after.memory.word offset = heap.memory.word offset :=
    Memory.word_congr fun inside hle hlt => hedits.byte_eq inside (hkept inside hle hlt)
  rw [tagAt, wordAt, hedits.size_eq, hword]
  rfl

/-- A header reads the same after an edit that keeps its bytes. -/
theorem Edits.header_eq {changed : Nat → Prop} (hedits : heap.Edits after changed)
    (hkept : ∀ address, bp - wordSize ≤ address → address < bp → ¬ changed address) :
    after.header bp = heap.header bp := by
  rw [header, header, headerOffset]
  by_cases hlow : wordSize ≤ bp
  · rw [Address.sub_of_le hlow, ok_bind, ok_bind]
    exact hedits.tagAt_eq fun address hle hlt => hkept address hle (by omega)
  · rw [Address.sub, if_neg hlow]
    rfl

/-- The tags of the prologue and of the epilogue stay when only bytes between them change. -/
theorem Bracketed.congr (h : heap.Bracketed) {changed : Nat → Prop}
    (hedits : heap.Edits after changed)
    (hbetween : ∀ address, changed address →
      heap.start + wordSize ≤ address ∧ address < heap.stop - wordSize) : after.Bracketed := by
  have hstop : after.stop = heap.stop := hedits.size_eq
  have hheader : after.header heap.start = heap.header heap.start :=
    hedits.header_eq fun address _ hlt hchanged => by
      have := (hbetween address hchanged).1
      omega
  have hend : after.header heap.stop = heap.header heap.stop :=
    hedits.header_eq fun address hle _ hchanged => by
      have := (hbetween address hchanged).2
      omega
  obtain ⟨first, hfirst, hsize⟩ := exists_of_decode h.header_start
  have hfooter : after.footer heap.start = heap.footer heap.start := by
    rw [footer, footer, footerOffset, footerOffset, blockSize_of_header hfirst,
      blockSize_of_header (hheader.trans hfirst), hsize, ok_bind]
    cases hnext : Address.add heap.start overhead with
    | error cause => rfl
    | ok next =>
        rw [Address.eq_of_add hnext, ok_bind, Address.sub_of_le (Nat.le_add_left ..),
          Nat.add_sub_cancel, ok_bind, ok_bind]
        refine hedits.tagAt_eq fun address _ hlt hchanged => ?_
        have := (hbetween address hchanged).1
        omega
  refine ⟨?_, ?_, ?_⟩
  · rw [hedits.start_eq, hheader, h.header_start]
  · rw [hedits.start_eq, hfooter, h.footer_start]
  · rw [hstop, hend, h.header_stop]

/-! ## Writing the tags -/

/-- The tags of blocks of a chain can be written in any order. Afterwards all of them are marked,
and no other byte has changed. -/
theorem run_setTags_each (htiles : Tiles first blocks heap.stop) (hlow : wordSize ≤ first)
    (haligned : ∀ block ∈ blocks, block.size % alignment = 0) (hlimit : heap.stop ≤ heapLimit)
    (hsubset : order ⊆ blocks) :
    ∃ after, (order.forM fun block =>
        setTags block.address block.size block.allocated).run heap = .ok () after ∧
      (∀ block ∈ order, after.memory.Marked block) ∧
      heap.Edits after (fun address => ∃ block ∈ order, block.InTags address) ∧
      after.free = heap.free := by
  induction order generalizing heap with
  | nil => exact ⟨heap, rfl, by simp, .refl heap _, rfl⟩
  | cons block order ih =>
      obtain ⟨hblock, hrest⟩ := List.cons_subset.1 hsubset
      have hsizes : ∀ block ∈ blocks, 8 ≤ block.size := fun block hmem =>
        eight_le_of_aligned (haligned block hmem) (htiles.size_pos block hmem)
      obtain ⟨hfirst, -, hend⟩ := htiles.bounds hblock
      have hstop : block.stop = block.address + block.size := rfl
      have hsize := hsizes block hblock
      simp only [wordSize, heapLimit, Heap.stop] at hlow hlimit hend
      have hrun : (setTags block.address block.size block.allocated).run heap = _ :=
        run_setTags_block block (haligned block hblock) (by omega) (by omega) (by omega) hsize
          (by omega) (by simp only [addressSpace]; omega)
      have hedits : heap.Edits (heap.withMemory (heap.memory.mark block)) block.InTags :=
        .withMemory heap (Memory.size_mark ..) fun address hout =>
          Memory.byte_mark_of_outside (by omega) hsize hout
      have hsame : (heap.withMemory (heap.memory.mark block)).stop = heap.stop := hedits.size_eq
      have hmarkedTiles : Tiles first blocks (heap.withMemory (heap.memory.mark block)).stop :=
        hsame ▸ htiles
      obtain ⟨after, hlast, hmarked, hlastEdits, hfree⟩ := ih hmarkedTiles (hsame ▸ hlimit) hrest
      have hthese : heap.Edits (heap.withMemory (heap.memory.mark block))
          (fun address => ∃ other ∈ block :: order, other.InTags address) :=
        hedits.mono fun _ hin => ⟨block, List.mem_cons_self, hin⟩
      have hthose : (heap.withMemory (heap.memory.mark block)).Edits after
          (fun address => ∃ other ∈ block :: order, other.InTags address) :=
        hlastEdits.mono fun _ hin => List.exists_mem_cons_of_exists hin
      refine ⟨after, ?_, List.forall_mem_cons.2 ⟨?_, hmarked⟩, hthese.trans hthose, hfree⟩
      · exact (run_bind_of_ok hrun).trans hlast
      · by_cases hagain : block ∈ order
        · exact hmarked block hagain
        · -- every later block is another one, so it has no byte of these tags
          have hnow : (heap.memory.mark block).Marked block :=
            Memory.marked_mark (by omega) hsize (by omega)
          refine hnow.congr (by omega) hsize fun address hin => hlastEdits.byte_eq address ?_
          rintro ⟨other, hother, hotherIn⟩
          exact htiles.not_inTags hblock (hrest hother) (fun heq => hagain (heq ▸ hother)) hsize
            (hsizes other (hrest hother)) hin hotherIn

/-- Between an intact prologue and an intact epilogue, the tags of a row of blocks that fills the
heap can be written over any bytes and in any order. Headers and footers then lead through the row,
and no byte has changed that is not in its tags. -/
theorem tiled_of_setTags (hbracketed : heap.Bracketed) (hlimit : heap.stop ≤ heapLimit)
    (hsizes : ∀ span ∈ spans, 0 < span.1 ∧ span.1 % alignment = 0)
    (htotal : heap.start + overhead + (spans.map Prod.fst).sum = heap.stop)
    (horder : ∀ block, block ∈ order ↔ block ∈ Block.row (heap.start + overhead) spans) :
    ∃ after, (order.forM fun block =>
        setTags block.address block.size block.allocated).run heap = .ok () after ∧
      after.Tiled (Block.row (heap.start + overhead) spans) ∧
      heap.Edits after (fun address =>
        ∃ block ∈ Block.row (heap.start + overhead) spans, block.InTags address) ∧
      after.free = heap.free := by
  have htiles : Tiles (heap.start + overhead) (Block.row (heap.start + overhead) spans) heap.stop :=
    htotal ▸ tiles_row fun span hspan => (hsizes span hspan).1
  have haligned : ∀ block ∈ Block.row (heap.start + overhead) spans, block.size % alignment = 0 :=
    fun block hblock => (hsizes _ (exists_span_of_mem_row hblock)).2
  have hsize : ∀ block ∈ Block.row (heap.start + overhead) spans, 8 ≤ block.size :=
    fun block hblock =>
      eight_le_of_aligned (haligned block hblock) (htiles.size_pos block hblock)
  obtain ⟨first, hfirst, -⟩ := exists_of_decode hbracketed.header_start
  obtain ⟨hlow, -, -⟩ := header_inv hfirst
  obtain ⟨after, hrun, hmarked, hedits, hfree⟩ := run_setTags_each htiles
    (hlow.trans (Nat.le_add_right ..)) haligned hlimit fun block hblock => (horder block).1 hblock
  have hrowEdits : heap.Edits after (fun address =>
      ∃ block ∈ Block.row (heap.start + overhead) spans, block.InTags address) :=
    hedits.mono fun address ⟨block, hblock, hin⟩ => ⟨block, (horder block).1 hblock, hin⟩
  have hafter : after.Bracketed := by
    refine hbracketed.congr hrowEdits fun address ⟨block, hblock, hin⟩ => ?_
    have hbounds := htiles.inTags_bounds hblock (hsize block hblock) hin
    simp only [overhead, wordSize] at hbounds ⊢
    omega
  have hstop : after.stop = heap.stop := hedits.size_eq
  have hstart : after.start = heap.start := hedits.start_eq
  refine ⟨after, hrun, ?_, hrowEdits, hfree⟩
  have hread : ∀ block ∈ Block.row (heap.start + overhead) spans,
      (after.header block.address).map Tag.decode = .ok (block.size, block.allocated) ∧
        (after.footer block.address).map Tag.decode = .ok (block.size, block.allocated) := by
    intro block hblock
    obtain ⟨hblockLow, -, hblockEnd⟩ := htiles.bounds hblock
    simp only [wordSize, overhead] at hlow hblockLow
    exact decode_of_marked (hmarked block ((horder block).2 hblock)) (haligned block hblock)
      (by omega) (hsize block hblock) (hstop.symm ▸ hblockEnd) (hstop.symm ▸ hlimit)
  exact hafter.tiled (hstart.symm ▸ hstop.symm ▸ htiles)
    (fun block hblock => (hread block hblock).1) fun block hblock => (hread block hblock).2

/-- Three blocks in a heap that is full of ones but for its prologue and its epilogue. The middle
one is written last, and the one behind it twice. -/
theorem tiled_of_scribbled_heap : ∃ heap after : Heap Bounded,
    heap.Bracketed ∧ heap.memory.byte 32 = 0xff ∧
      ([⟨48, 16, false⟩, ⟨48, 16, false⟩, ⟨16, 8, true⟩, ⟨24, 24, false⟩].forM fun block : Block =>
        setTags block.address block.size block.allocated).run heap = .ok () after ∧
      after.Tiled [⟨16, 8, true⟩, ⟨24, 24, false⟩, ⟨48, 16, false⟩] ∧
      after.memory.byte 32 = 0xff := by
  have horder : ∀ block : Block,
      block ∈ [⟨48, 16, false⟩, ⟨48, 16, false⟩, ⟨16, 8, true⟩, ⟨24, 24, false⟩] ↔
        block ∈ Block.row 16 [(8, true), (24, false), (16, false)] := by
    intro block
    simp only [Block.row, List.mem_cons, List.not_mem_nil]
    tauto
  let bytes := ((((Memory.empty 0xff).extend 64).setWord 4 9).setWord 8 9).setWord 60 1
  let heap : Heap Bounded := { raw .standard ⟨⟨64, 64⟩, bytes⟩ with start := 8 }
  have hbracketed : heap.Bracketed := ⟨by decide +kernel, by decide +kernel, by decide +kernel⟩
  have hones : heap.memory.byte 32 = 0xff := by decide +kernel
  obtain ⟨after, hrun, htiled, hedits, -⟩ :=
    tiled_of_setTags hbracketed (by decide +kernel) (by decide) (by decide +kernel) horder
  refine ⟨heap, after, hbracketed, hones, hrun, htiled, (hedits.byte_eq 32 ?_).trans hones⟩
  simp [Block.row, heap, Block.InTags, Block.stop]

end Heap

end BoundaryTag
