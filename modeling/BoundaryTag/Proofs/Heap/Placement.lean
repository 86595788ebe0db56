import BoundaryTag.Proofs.Heap.Settling
import Mathlib.Data.List.Perm.Subperm

/-!
# Placing a request

`Heap.Sound.firstFit_eq` says that the walk over the free list finds the block that
`Layout.firstFit` chooses, and `Heap.Sound.run_occupy` that taking a free block of a settled heap
does to the layout what `Layout.occupy` does. Between the tags of the part that is taken and those
of the rest, the headers lead nowhere, so `Heap.run_setTags_pair` covers both writes at once.
-/

namespace BoundaryTag

open HeapM

variable {σ : Type} {heap : Heap σ} {layout : Layout} {before after : List Block} {block : Block}
  {size : Nat}

/-- The tags of a block and of the one behind it can be written one after the other. -/
theorem Heap.run_setTags_pair (heap : Heap σ) {taken rest : Block}
    (hnext : rest.address = taken.stop) (htaken : taken.size % 8 = 0) (hrest : rest.size % 8 = 0)
    (hlow : 4 ≤ taken.address) (htakenSize : 8 ≤ taken.size) (hrestSize : 8 ≤ rest.size)
    (hend : rest.stop ≤ heap.memory.size) (hlimit : heap.memory.size < 0x1_0000_0000) :
    ∃ first second, (setTags taken.address taken.size taken.allocated).run heap = .ok () first ∧
      first.blockAfter taken.address = .ok rest.address ∧
      (setTags rest.address rest.size rest.allocated).run first = .ok () second ∧
      (second.memory.Marked taken ∧ second.memory.Marked rest) ∧ second.free = heap.free ∧
      heap.Edits second fun address => taken.InTags address ∨ rest.InTags address := by
  have htakenStop : taken.stop = taken.address + taken.size := rfl
  have hrestStop : rest.stop = rest.address + rest.size := rfl
  have hrestLow : 4 ≤ rest.address := by omega
  have hspace : heap.memory.size < addressSpace := by simp only [addressSpace]; omega
  have hsize : (heap.memory.mark taken).size = heap.memory.size := Memory.size_mark ..
  have htakenMarked : (heap.memory.mark taken).Marked taken :=
    Memory.marked_mark hlow htakenSize (by omega)
  have hrestMarked : ((heap.memory.mark taken).mark rest).Marked rest :=
    Memory.marked_mark hrestLow hrestSize (by omega)
  have hkept : ((heap.memory.mark taken).mark rest).Marked taken := by
    refine htakenMarked.congr hlow htakenSize fun address hin =>
      Memory.byte_mark_of_outside hrestLow hrestSize fun hin' => ?_
    simp only [Block.InTags, overhead, wordSize] at hin hin'
    omega
  have hedits : heap.Edits (heap.withMemory ((heap.memory.mark taken).mark rest)) fun address =>
      taken.InTags address ∨ rest.InTags address := by
    refine .withMemory heap ((Memory.size_mark ..).trans hsize) fun address hout => ?_
    rw [not_or] at hout
    exact (Memory.byte_mark_of_outside hrestLow hrestSize hout.2).trans
      (Memory.byte_mark_of_outside hlow htakenSize hout.1)
  let first := heap.withMemory (heap.memory.mark taken)
  have hfirstSize : first.memory.size = heap.memory.size := hsize
  have hheader : first.header taken.address = .ok (.ofSize taken.size taken.allocated) :=
    header_of_marked htakenMarked hlow (by omega)
  have hfirst := run_setTags_block taken htaken (by omega) hlow (by omega) htakenSize
    (show taken.stop ≤ heap.memory.size + 4 by omega) (by omega)
  have hsecond := run_setTags_block rest hrest (by omega) hrestLow
    (show rest.address ≤ first.memory.size by omega) hrestSize (by omega) (by omega)
  rw [memory_withMemory, withMemory_withMemory] at hsecond
  -- from here on, what was written is known by its marks only
  generalize (heap.memory.mark taken).mark rest = memory at *
  refine ⟨first, _, hfirst, ?_, hsecond, ⟨hkept, hrestMarked⟩, free_withMemory .., hedits⟩
  rw [blockAfter, blockSize_of_header hheader, Tag.size_ofSize htaken (by omega), hnext]
  exact Address.add_of_lt (by omega)

namespace Heap.Sound

/-! ## First fit -/

/-- The sizes of the listed blocks are those of the layout. -/
theorem blockSize_listed (h : heap.Sound layout) {bp : Nat} (hbp : bp ∈ layout.order) :
    heap.blockSize bp = .ok (layout.sizeAt bp) := by
  obtain ⟨block, hblock, -, rfl⟩ := h.exists_block hbp
  rw [h.blockSize_eq hblock, Layout.sizeAt_address h.tiles hblock]

theorem slot_listed_le (h : heap.Sound layout) {bp : Nat} (hbp : bp ∈ layout.order) :
    bp + 8 ≤ heap.memory.size := by
  obtain ⟨block, hblock, -, rfl⟩ := h.exists_block hbp
  have hbounds := h.bounds hblock
  simp only [Block.stop] at hbounds
  omega

/-- The list has no more blocks than the memory has bytes, so a walk of that many steps sees it
all. -/
theorem length_order_le (h : heap.Sound layout) : layout.order.length ≤ heap.memory.size := by
  have hsubperm : layout.order.length ≤ (freeAddresses layout.blocks).length :=
    (h.order_nodup.subperm h.order_free).length_le
  have hfree : (freeAddresses layout.blocks).length ≤ layout.blocks.length := by
    rw [freeAddresses, List.length_map]
    exact List.length_filter_le _ _
  have hblocks := h.tiles.length_le
  have hstop : layout.stop = heap.memory.size := h.stop_eq
  omega

/-- The walk over the list finds the first block that is large enough. -/
theorem firstFit_eq (h : heap.Sound layout) (size : Nat) :
    heap.firstFit size = .ok (layout.firstFit size) := by
  rw [Heap.firstFit, h.lists.head_eq]
  exact firstFitFrom_eq h.lists.linked (fun _ => h.slot_listed_le) (fun _ => h.blockSize_listed)
    h.length_order_le

/-! ## Taking a block -/

/-- An unlisted block can be split by writing the tags of its two parts. -/
theorem run_split (h : heap.Sound layout) (taken rest : Block)
    (hblocks : layout.blocks = before ++ block :: after) (hunlisted : block.address ∉ layout.order)
    (haddress : taken.address = block.address) (hnext : rest.address = taken.stop)
    (hstop : rest.stop = block.stop) (hmin : heap.settings.minBlock ≤ taken.size)
    (hminRest : heap.settings.minBlock ≤ rest.size) (haligned : taken.size % 8 = 0) :
    ∃ first second, (setTags taken.address taken.size taken.allocated).run heap = .ok () first ∧
      first.blockAfter taken.address = .ok rest.address ∧
      (setTags rest.address rest.size rest.allocated).run first = .ok () second ∧
      second.Sound { layout with blocks := before ++ taken :: rest :: after } ∧
      heap.Edits second fun address => taken.InTags address ∨ rest.InTags address := by
  have hblock : block ∈ layout.blocks := by simp [hblocks]
  have hbounds := h.bounds hblock
  have hleast := h.settings_valid.smallest_le
  simp only [smallestBlock, overhead, wordSize] at hleast
  have hblockStop : block.stop = block.address + block.size := rfl
  have htakenStop : taken.stop = taken.address + taken.size := rfl
  have hrestStop : rest.stop = rest.address + rest.size := rfl
  have hrestAligned : rest.size % 8 = 0 := by omega
  obtain ⟨first, second, hfirst, hbetween, hsecond, hmarked, hfree, hedits⟩ :=
    run_setTags_pair heap hnext haligned hrestAligned (by omega) (by omega) (by omega) (by omega)
      (by omega)
  have htiles := h.tiles
  rw [hblocks] at htiles
  obtain ⟨hbefore, -, hafter⟩ := tiles_append_cons.1 htiles
  have hparts : Tiles block.address [taken, rest] block.stop :=
    tiles_cons.2 ⟨haddress, by omega, tiles_cons.2 ⟨hnext, by omega, tiles_nil.2 hstop⟩⟩
  have hsound := h.retile before [block] [taken, rest] after (by simp [hblocks]) hbefore hparts
    hafter hedits (fun address hin => ?_) hfree (by simpa using hmarked)
    (by simpa using ⟨hmin, hminRest⟩) (by simpa using ⟨haligned, hrestAligned⟩)
    (by simpa using hunlisted)
  · exact ⟨first, second, hfirst, hbetween, hsecond, by simpa using hsound, hedits⟩
  · simp only [Block.InTags, overhead, wordSize] at hin
    omega

/-- Taking a free block of a settled heap leads to a heap that spells the layout in which the block
is taken. -/
theorem run_occupy (h : heap.Sound layout) (hsettled : layout.Settled)
    (hblocks : layout.blocks = before ++ block :: after) (hfree : block.allocated = false)
    (hfits : size ≤ block.size) (hmin : heap.settings.minBlock ≤ size) (haligned : size % 8 = 0) :
    ∃ taken, (occupy block.address size).run heap = .ok () taken ∧
      taken.Sound (layout.occupy block.address size heap.settings.minBlock) ∧
      (layout.occupy block.address size heap.settings.minBlock).Settled ∧
      heap.Edits taken fun address => layout.Bookkeeping address ∨
        (layout.occupy block.address size heap.settings.minBlock).Bookkeeping address := by
  have hblock : block ∈ layout.blocks := by simp [hblocks]
  have hlisted : block.address ∈ layout.order :=
    hsettled.listed _ (mem_freeAddresses.2 ⟨block, hblock, hfree, rfl⟩)
  obtain ⟨delisted, hdelist, hsound, hlinks⟩ := h.run_delist hlisted
  have hunlisted : block.address ∉ layout.order.erase block.address := h.order_nodup.not_mem_erase
  have hrest : layout.occupy block.address size heap.settings.minBlock = { layout with
      blocks := before ++ (block.carve size heap.settings.minBlock ++ after)
      order := if block.size - size ≥ heap.settings.minBlock then
        (block.address + size) :: layout.order.erase block.address
        else layout.order.erase block.address } := Layout.occupy_of_split hblocks h.tiles
  have hoccupied : (layout.occupy block.address size heap.settings.minBlock).Settled :=
    hsettled.occupy hblocks h.tiles hfree
  rw [occupy, run_bind_of_ok (run_observe_of_ok (h.blockSize_eq hblock)), run_bind_of_ok hdelist,
    run_bind_of_ok (run_ofExcept_of_ok (Address.sub_of_le hfits) _), run_bind_of_ok (run_get _),
    hlinks.settings_eq]
  rw [hrest, Block.carve] at hoccupied ⊢
  by_cases hleft : block.size - size ≥ heap.settings.minBlock
  · rw [if_pos hleft, if_pos hleft] at hoccupied ⊢
    rw [if_pos hleft]
    have hstop : block.address + size + (block.size - size) = block.address + block.size := by omega
    obtain ⟨first, second, hfirst, hnext, hsecond, hsplit, htags⟩ :=
      hsound.run_split ⟨block.address, size, true⟩
        ⟨block.address + size, block.size - size, false⟩ hblocks hunlisted rfl rfl hstop
        (hlinks.settings_eq ▸ hmin) (hlinks.settings_eq ▸ hleft) haligned
    have hpos : smallestBlock ≤ size := h.settings_valid.smallest_le.trans hmin
    have hminPos := h.settings_valid.smallest_le
    simp only [smallestBlock, overhead, wordSize] at hpos hminPos
    have hinside : block.address + size ∉ layout.order.erase block.address := by
      intro hmem
      obtain ⟨other, hother, -, haddress⟩ := hsound.exists_block hmem
      exact h.tiles.address_ne_inside hblock hother (by omega) (by omega) haddress
    obtain ⟨taken, hrun, htaken, hlinks'⟩ := hsplit.run_enlist
      (mem_freeAddresses.2 ⟨⟨block.address + size, block.size - size, false⟩, by simp, rfl, rfl⟩)
      hinside
    refine ⟨taken, ?_, htaken, hoccupied, ?_⟩
    · rw [run_bind_of_ok hfirst, run_bind_of_ok (run_observe_of_ok hnext), run_bind_of_ok hsecond,
        hrun]
    · refine ((hlinks.mono fun _ => .inl).trans
        (htags.mono fun address hin => .inr (.inl ?_))).trans (hlinks'.mono fun _ => .inr)
      rcases hin with hin | hin
      · exact ⟨_, by simp, .inl hin⟩
      · exact ⟨⟨block.address + size, block.size - size, false⟩, by simp, .inl hin⟩
  · rw [if_neg hleft, if_neg hleft] at hoccupied ⊢
    rw [if_neg hleft]
    have htiles := hsound.tiles
    rw [hblocks] at htiles
    obtain ⟨hbefore, -, hafter⟩ := tiles_append_cons.1 htiles
    obtain ⟨taken, hrun, htaken, htags⟩ := hsound.run_setTags
      { block with allocated := true } before [block] after (by simp [hblocks]) hbefore hafter
      (hsound.minBlock_le block hblock) (hsound.size_aligned block hblock)
      (by simpa using hunlisted)
    refine ⟨taken, hrun, htaken, hoccupied,
      (hlinks.mono fun _ => .inl).trans (htags.mono fun address hin => .inr (.inl ?_))⟩
    exact ⟨_, by simp, .inl hin⟩

end Heap.Sound

end BoundaryTag
