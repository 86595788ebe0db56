import BoundaryTag.Proofs.Heap.Operations
import BoundaryTag.Proofs.Heap.Walks
import Mathlib.Order.Bounds.Basic

/-!
# Which block a request takes, and how much of it

A request is rounded up to the least block that holds it (`isLeast_of_blockSizeFor?`). The block
that it takes stands in the heap as it is or in the heap after it has grown (`Heap.Chooses`), and is
always one of a settled layout (`Heap.Sound.exists_choice`). All of it is taken if the rest could
not be a block, so that `Block.granted` says how large the block is that comes back. When that is
more than was needed, nothing has been split off (`Heap.Sound.takenWhole`).
-/

namespace BoundaryTag

open HeapM

variable {σ ε : Type} {heap source placed : Heap σ} {layout found next : Layout} {block : Block}
  {requested request size minBlock address : Nat}

/-! ## Sizes -/

/-- The sizes of blocks that hold this many bytes with both tags and are no smaller than the least
block. -/
def blockSizes (requested minBlock : Nat) : Set Nat :=
  {size | size % alignment = 0 ∧ requested + overhead ≤ size ∧ minBlock ≤ size}

/-- A request needs its bytes and both tags, rounded up, or the least block if that is more. -/
theorem exists_of_blockSizeFor? (h : blockSizeFor? requested minBlock = some size) :
    ∃ padded, roundUp? (requested + overhead) alignment = some padded ∧
      size = max padded minBlock := by
  rw [blockSizeFor?] at h
  obtain ⟨_, -, h⟩ := Option.bind_eq_some_iff.1 h
  obtain ⟨padded, hpadded, h⟩ := Option.bind_eq_some_iff.1 h
  obtain ⟨_, -, hsize⟩ := Option.bind_eq_some_iff.1 h
  exact ⟨padded, hpadded, (Option.some.inj hsize).symm⟩

/-- The block for a request is the least one that holds it. -/
theorem isLeast_of_blockSizeFor? (haligned : minBlock % 8 = 0)
    (h : blockSizeFor? requested minBlock = some size) :
    IsLeast (blockSizes requested minBlock) size := by
  obtain ⟨padded, hpadded, rfl⟩ := exists_of_blockSizeFor? h
  obtain ⟨hmod, hroom, hleast, -⟩ := roundUp?_alignment hpadded
  refine ⟨⟨?_, hroom.trans (Nat.le_max_left ..), Nat.le_max_right ..⟩, fun other hother => ?_⟩
  · show max padded minBlock % 8 = 0
    omega
  · obtain ⟨hotherMod, hotherRoom, hotherMin⟩ := hother
    simp only [alignment] at hotherMod
    omega

/-- A request that fits in the least block gets a block of this size. -/
theorem blockSizeFor?_of_le (haligned : minBlock % 8 = 0) (hlargest : minBlock ≤ largestBlock)
    (hfits : requested + overhead ≤ minBlock) :
    blockSizeFor? requested minBlock = some minBlock := by
  have hspace : requested + overhead < addressSpace := by
    simp only [largestBlock, overhead, wordSize, addressSpace] at *
    omega
  obtain ⟨padded, hpadded⟩ : ∃ padded, roundUp? (requested + overhead) alignment = some padded :=
    Option.ne_none_iff_exists'.1 (mt roundUp?_eq_none_iff.1 (by
      simp only [largestBlock, overhead, wordSize, alignment, addressSpace] at *
      omega))
  obtain ⟨hmod, hroom, hlt, -⟩ := roundUp?_alignment hpadded
  have hsize : max padded minBlock = minBlock := by
    simp only [overhead, wordSize] at hfits hroom hlt
    omega
  have hguard : (guard (minBlock ≤ largestBlock) : Option Unit) = some () := if_pos hlargest
  have hfirst : (guard (requested + overhead < addressSpace) : Option Unit) = some () :=
    if_pos hspace
  rw [blockSizeFor?, hfirst, hpadded]
  show (do guard (max padded minBlock ≤ largestBlock); some (max padded minBlock)) = some minBlock
  rw [hsize, hguard]
  rfl

namespace Block

/-- How large the block is that a request for `size` bytes gets from a free block. -/
def granted (size minBlock : Nat) (block : Block) : Nat :=
  if block.size - size ≥ minBlock then size else block.size

/-- What is granted stands where the free block stood. -/
theorem granted_mem_carve (size minBlock : Nat) (block : Block) :
    ⟨block.address, block.granted size minBlock, true⟩ ∈ block.carve size minBlock := by
  unfold granted carve
  split
  · exact List.mem_cons_self
  · exact List.mem_singleton_self _

/-- What is granted is aligned, as large as was asked for, and exceeds that by less than a block. -/
theorem granted_bounds (haligned : size % 8 = 0) (hblock : block.size % 8 = 0)
    (hfits : size ≤ block.size) (hmin : 8 ≤ minBlock) (hminAligned : minBlock % 8 = 0) :
    block.granted size minBlock % 8 = 0 ∧ size ≤ block.granted size minBlock ∧
      block.granted size minBlock + 8 ≤ size + minBlock := by
  unfold granted
  split <;> omega

/-- More than was asked for is granted only when the whole block is. -/
theorem granted_of_lt (h : size < block.granted size minBlock) :
    block.size - size < minBlock ∧ block.granted size minBlock = block.size := by
  unfold granted at h ⊢
  split at h
  next => exact absurd h (Nat.lt_irrefl _)
  next hrest => exact ⟨Nat.lt_of_not_le hrest, if_neg hrest⟩

end Block

namespace Layout

/-- What is granted of a free block is allocated afterwards. -/
theorem granted_mem_held (hblock : block ∈ layout.blocks) :
    ⟨block.address, block.granted size minBlock, true⟩ ∈
      (layout.occupy block.address size minBlock).held := by
  refine mem_held.2 ⟨List.mem_flatMap.2 ⟨block, hblock, ?_⟩, rfl⟩
  rw [if_pos rfl]
  exact block.granted_mem_carve size minBlock

/-- A block that is taken whole stands among the same addresses as before, and is no longer
listed. -/
theorem occupy_whole {first stop : Nat} (htiles : Tiles first layout.blocks stop)
    (hblock : block ∈ layout.blocks) (hrest : block.size - size < minBlock) :
    (layout.occupy block.address size minBlock).blocks.map (·.address) =
        layout.blocks.map (·.address) ∧
      (layout.occupy block.address size minBlock).order = layout.order.erase block.address := by
  obtain ⟨before, after, hblocks⟩ := List.append_of_mem hblock
  have hkept : ¬ block.size - size ≥ minBlock := Nat.not_le.2 hrest
  rw [occupy_of_split hblocks htiles, Block.carve, if_neg hkept, if_neg hkept, hblocks]
  simp

/-- Blocks that are allocated after a block was freed were allocated before. -/
theorem held_release_subset (layout : Layout) (address : Nat) :
    (layout.release address).held ⊆ layout.held := by
  intro block hblock
  rw [release, held_settle] at hblock
  obtain ⟨hmem, hallocated⟩ := mem_held.1 hblock
  obtain ⟨old, hold, rfl⟩ := List.mem_map.1 hmem
  by_cases hfreed : old.address = address
  · rw [Block.markFree, if_pos hfreed] at hallocated
    cases hallocated
  · rw [Block.markFree, if_neg hfreed] at hallocated ⊢
    exact mem_held.2 ⟨hold, hallocated⟩

end Layout

/-! ## The choice of a block -/

namespace Heap

/-- A free block was taken whole: it had this size, no other block has come into being, and it is
the only one that has left the free list. -/
structure TakenWhole (source placed : Heap σ) (address size : Nat) : Prop where
  free : source.isAllocated address = .ok false
  blockSize_eq : source.blockSize address = .ok size
  blocks_eq : ∃ bps, source.blocks = .ok bps ∧ placed.blocks = .ok bps
  freeBlocks_eq : ∃ listed, source.freeBlocks = .ok listed ∧ address ∈ listed ∧
    placed.freeBlocks = .ok (listed.erase address)

/-- A free block of a settled heap whose rest is too small to be a block is taken whole. -/
theorem Sound.takenWhole (h : source.Sound found) (hsettled : found.Settled)
    (hplaced : placed.Sound (found.occupy block.address size minBlock))
    (hstart : placed.start = source.start) (hblock : block ∈ found.blocks)
    (hfree : block.allocated = false) (hrest : block.size - size < minBlock) :
    source.TakenWhole placed block.address block.size := by
  obtain ⟨hblocks, horder⟩ := Layout.occupy_whole h.tiles hblock hrest
  refine ⟨hfree ▸ h.isAllocated_eq hblock, h.blockSize_eq hblock,
    ⟨_, h.blocks_eq, ?_⟩, _, h.freeBlocks_eq, ?_, ?_⟩
  · rw [hplaced.blocks_eq, hblocks, hstart]
  · exact hsettled.listed _ (mem_freeAddresses.2 ⟨block, hblock, hfree, rfl⟩)
  · rw [hplaced.freeBlocks_eq, horder]

variable [Provider σ ε]

/-- The block with this address is the one that a request for `size` bytes takes: the first listed
block that is large enough, or the one that the heap grows by. It stands in the heap as it is, or in
the heap after it has grown. -/
inductive Chooses (heap : Heap σ) (size address : Nat) : Heap σ → Prop
  | listed (hfound : heap.firstFit size = .ok (some address)) : Chooses heap size address heap
  | grown {source : Heap σ} (hnone : heap.firstFit size = .ok none)
      (hexpand : (expand (max size heap.settings.chunkSize)).run heap = .ok address source) :
      Chooses heap size address source

variable [LawfulProvider σ]

/-- A request that is met takes a free block of a settled heap. -/
theorem Sound.exists_choice (h : heap.Sound layout) (hsettled : layout.Settled)
    (hallocate : layout.allocate heap.settings heap.toRegion.grants request = .ok (address, next)) :
    ∃ source found block size, heap.Chooses size address source ∧ source.Sound found ∧
      found.Settled ∧ source.start = heap.start ∧ block ∈ found.blocks ∧
      block.allocated = false ∧ block.address = address ∧ request ≠ 0 ∧
      blockSizeFor? request heap.settings.minBlock = some size ∧ size ≤ block.size ∧
      next = found.occupy address size heap.settings.minBlock := by
  obtain ⟨size, found, hpos, hsize, hnext, hfound⟩ := Layout.exists_of_allocate hallocate
  obtain ⟨-, hmin, haligned, hlargest⟩ :=
    blockSizeFor?_spec h.settings_valid.minBlock_aligned hsize
  rcases hfound with ⟨hlisted, rfl⟩ | ⟨hnone, hlimit, hgranted, hexpand⟩
  · obtain ⟨block, hblock, hfree, haddress, hfits⟩ := h.exists_of_firstFit hlisted
    exact ⟨heap, found, block, size, .listed ((h.firstFit_eq size).trans (congrArg _ hlisted)), h,
      hsettled, rfl, hblock, hfree, haddress, hpos, hsize, hfits, hnext⟩
  · obtain ⟨hcount, -⟩ := h.settings_valid.growth haligned hlargest
    have hleast : smallestBlock ≤ heap.settings.minBlock := h.settings_valid.smallest_le
    simp only [smallestBlock, overhead, wordSize] at hleast
    obtain ⟨source, hrun, hsource, hsourceSettled, hspares⟩ :=
      h.run_expand hsettled hcount (hmin.trans (Nat.le_max_left _ _)) hlimit hgranted
    obtain ⟨block, hblock, haddress, hfree, hfits⟩ :=
      Layout.exists_expand h.tiles (show 0 < max size heap.settings.chunkSize by omega)
    rw [hexpand] at hrun hsource hsourceSettled hblock haddress
    exact ⟨source, found, block, size, .grown ((h.firstFit_eq size).trans (congrArg _ hnone)) hrun,
      hsource, hsourceSettled, hspares.start_eq, hblock, hfree, haddress, hpos, hsize,
      (Nat.le_max_left _ _).trans hfits, hnext⟩

end Heap

end BoundaryTag
