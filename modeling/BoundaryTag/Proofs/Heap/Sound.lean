import BoundaryTag.Proofs.Heap.FreeList
import BoundaryTag.Proofs.Layout.Coalesce

/-!
# Heaps in the middle of an operation

`Heap.Sound` relates a heap to a layout, like `Heap.WellFormed`, but lets free blocks stand side by
side and be missing from the free list, as they do between the steps of an operation.
`Layout.Settled` is what is missing: with it, a sound heap is well-formed (`Heap.Sound.wellFormed`).
A sound heap changes in two ways: `Heap.Sound.relist` covers a step that edits links, and
`Heap.Sound.retile` one that writes the tags of the blocks that take the place of some others. All
bytes that a heap uses for itself are in the `Layout.Bookkeeping` of its layout.
-/

namespace BoundaryTag

variable {σ : Type}

/-- Whether an address lies in the links of a block, which only a free block has. -/
def Block.InLinks (block : Block) (address : Nat) : Prop :=
  block.allocated = false ∧ block.address ≤ address ∧ address < block.address + 8

namespace Layout

/-- Whether an address lies in a tag, in a link or in the epilogue. -/
def Bookkeeping (layout : Layout) (address : Nat) : Prop :=
  (∃ block ∈ layout.blocks, block.InTags address ∨ block.InLinks address) ∨
    (layout.stop - wordSize ≤ address ∧ address < layout.stop)

end Layout

namespace Heap

/-- The tags in memory are those of the prologue, of these blocks one after the other, and of the
epilogue. -/
structure Chained (heap : Heap σ) (layout : Layout) : Prop where
  settings_valid : heap.settings.Valid
  start_pos : 0 < heap.start
  start_aligned : heap.start % alignment = 0
  stop_eq : layout.stop = heap.stop
  stop_le : heap.stop ≤ heapLimit
  tiles : Tiles (heap.start + overhead) layout.blocks layout.stop
  minBlock_le : ∀ block ∈ layout.blocks, heap.settings.minBlock ≤ block.size
  size_aligned : ∀ block ∈ layout.blocks, block.size % alignment = 0
  prologue_marked : heap.memory.Marked heap.prologue
  marked : ∀ block ∈ layout.blocks, heap.memory.Marked block
  epilogue : heap.memory.tag (layout.stop - wordSize) = .epilogue

/-- The bytes of the heap spell the blocks of the layout, and its order for the free ones that are
listed. -/
structure Sound (heap : Heap σ) (layout : Layout) : Prop extends heap.Chained layout where
  lists : heap.Lists layout.order
  order_nodup : layout.order.Nodup
  order_free : ∀ bp ∈ layout.order, bp ∈ freeAddresses layout.blocks

variable {heap after : Heap σ} {layout : Layout} {block : Block}

/-! ## Reading the tags of a marked block -/

theorem header_of_marked (h : heap.memory.Marked block) (hlow : 4 ≤ block.address)
    (hhigh : block.address ≤ heap.memory.size) :
    heap.header block.address = .ok (.ofSize block.size block.allocated) := by
  rw [header_of_le hlow hhigh, ← h.header]
  rfl

/-- The header of a marked block leads to its footer. -/
theorem footerOffset_of_marked (h : heap.memory.Marked block) (haligned : block.size % 8 = 0)
    (hfits : block.size < 0x1_0000_0000) (hlow : 4 ≤ block.address)
    (hhigh : block.address ≤ heap.memory.size) (hsize : 8 ≤ block.size)
    (hspace : block.stop < addressSpace) :
    heap.footerOffset block.address = .ok (block.stop - overhead) := by
  rw [footerOffset, blockSize_of_header (header_of_marked h hlow hhigh), ok_bind,
    Tag.size_ofSize haligned hfits, Address.add_of_lt hspace, ok_bind]
  exact Address.sub_of_le (by simp only [overhead, wordSize]; omega)

/-- The footer of a marked block is equal to its header. -/
theorem footer_of_marked (h : heap.memory.Marked block) (haligned : block.size % 8 = 0)
    (hfits : block.size < 0x1_0000_0000) (hlow : 4 ≤ block.address) (hsize : 8 ≤ block.size)
    (hend : block.stop ≤ heap.memory.size + 4) (hspace : block.stop < addressSpace) :
    heap.footer block.address = .ok (.ofSize block.size block.allocated) := by
  have hstop : block.stop = block.address + block.size := rfl
  rw [footer, footerOffset_of_marked h haligned hfits hlow (by omega) hsize hspace, ok_bind,
    tagAt_of_le (by simp only [overhead, wordSize]; omega), ← h.footer]
  rfl

/-- The footer below an address leads to the block that ends there. -/
theorem blockBefore_of_marked (h : heap.memory.Marked block) (haligned : block.size % 8 = 0)
    (hfits : block.size < 0x1_0000_0000) (hlow : 8 ≤ block.stop)
    (hhigh : block.stop ≤ heap.memory.size + 4) :
    heap.blockBefore block.stop = .ok block.address := by
  have hfooter : heap.tagAt (block.stop - 8) = .ok (.ofSize block.size block.allocated) := by
    rw [tagAt_of_le (by omega), ← h.footer]
    rfl
  have hoffset : Address.sub block.stop overhead = .ok (block.stop - 8) := Address.sub_of_le hlow
  rw [blockBefore, hoffset]
  show (heap.tagAt (block.stop - 8) >>= _) = _
  rw [hfooter]
  show Address.sub block.stop (Tag.ofSize block.size block.allocated).size = _
  have hle : block.size ≤ block.stop := Nat.le_add_left ..
  rw [Tag.size_ofSize haligned hfits, Address.sub_of_le hle, Block.stop, Nat.add_sub_cancel]

namespace Chained

/-- A block lies behind the prologue and before the end, and has room for tags and links. -/
theorem bounds (h : heap.Chained layout) (hblock : block ∈ layout.blocks) :
    heap.start + 8 ≤ block.address ∧ 16 ≤ block.size ∧ block.stop ≤ heap.memory.size ∧
      heap.memory.size < 0x1_0000_0000 ∧ block.size % 8 = 0 := by
  obtain ⟨hlow, -, hhigh⟩ := h.tiles.bounds hblock
  have hleast := h.settings_valid.smallest_le.trans (h.minBlock_le block hblock)
  have hstop := h.stop_eq ▸ hhigh
  have hlimit := h.stop_le
  have haligned := h.size_aligned block hblock
  simp only [overhead, wordSize, smallestBlock, alignment, heapLimit, Heap.stop] at *
  omega

theorem start_le (h : heap.Chained layout) : heap.start + 8 ≤ heap.memory.size := by
  have hle := h.tiles.first_le_stop
  rw [h.stop_eq] at hle
  exact hle

theorem eight_le_start (h : heap.Chained layout) : 8 ≤ heap.start := by
  have hpos := h.start_pos
  have haligned := h.start_aligned
  simp only [alignment] at haligned
  omega

/-- All blocks are aligned, since the prologue and all sizes are. -/
theorem address_aligned (h : heap.Chained layout) (hblock : block ∈ layout.blocks) :
    block.address % alignment = 0 := by
  refine h.tiles.address_aligned ?_ h.size_aligned hblock
  have hstart := h.start_aligned
  simp only [alignment, overhead, wordSize] at *
  omega

theorem header_eq (h : heap.Chained layout) (hblock : block ∈ layout.blocks) :
    heap.header block.address = .ok (.ofSize block.size block.allocated) := by
  have hbounds := h.bounds hblock
  simp only [Block.stop] at hbounds
  exact header_of_marked (h.marked block hblock) (by omega) (by omega)

theorem blockSize_eq (h : heap.Chained layout) (hblock : block ∈ layout.blocks) :
    heap.blockSize block.address = .ok block.size := by
  have hbounds := h.bounds hblock
  simp only [Block.stop] at hbounds
  rw [blockSize_of_header (h.header_eq hblock), Tag.size_ofSize (by omega) (by omega)]

theorem isAllocated_eq (h : heap.Chained layout) (hblock : block ∈ layout.blocks) :
    heap.isAllocated block.address = .ok block.allocated := by
  rw [isAllocated_of_header (h.header_eq hblock),
    Tag.allocated_ofSize (h.size_aligned block hblock)]

theorem blockAfter_eq (h : heap.Chained layout) (hblock : block ∈ layout.blocks) :
    heap.blockAfter block.address = .ok block.stop := by
  have hbounds := h.bounds hblock
  rw [blockAfter, h.blockSize_eq hblock]
  exact Address.add_of_lt (show block.stop < addressSpace by simp only [addressSpace]; omega)

theorem blockBefore_eq (h : heap.Chained layout) (hblock : block ∈ layout.blocks) :
    heap.blockBefore block.stop = .ok block.address := by
  have hbounds := h.bounds hblock
  have hstop : block.stop = block.address + block.size := rfl
  exact blockBefore_of_marked (h.marked block hblock) (by omega) (by omega) (by omega) (by omega)

/-- Before the first block is the prologue. -/
theorem blockBefore_first (h : heap.Chained layout) :
    heap.blockBefore (heap.start + 8) = .ok heap.start :=
  blockBefore_of_marked h.prologue_marked (by simp [prologue]) (by simp [prologue])
    (by simp [prologue, Block.stop])
    (by have := h.start_le; simp only [prologue, Block.stop, overhead, wordSize]; omega)

theorem isAllocated_start (h : heap.Chained layout) : heap.isAllocated heap.start = .ok true := by
  have hstart := h.eight_le_start
  have hle := h.start_le
  have hheader : heap.header heap.start = .ok (.ofSize overhead true) :=
    header_of_marked h.prologue_marked (show 4 ≤ heap.start by omega)
      (show heap.start ≤ heap.memory.size by omega)
  rw [isAllocated_of_header hheader, Tag.allocated_ofSize (by simp)]

/-- Behind the last block is the epilogue. -/
theorem isAllocated_stop (h : heap.Chained layout) : heap.isAllocated layout.stop = .ok true := by
  have hstart := h.start_le
  have hstop : layout.stop = heap.memory.size := h.stop_eq
  have hheader : heap.header layout.stop = .ok .epilogue := by
    rw [header_of_le (by omega) (by omega), ← h.epilogue]
    rfl
  rw [isAllocated_of_header hheader, Tag.epilogue, Tag.allocated_ofSize (by simp)]

/-- The slots of different blocks do not overlap. -/
theorem slots (h : heap.Chained layout) {listed : List Nat} (hnodup : listed.Nodup)
    (hlisted : ∀ bp ∈ listed, ∃ block ∈ layout.blocks, block.address = bp) :
    heap.memory.Slots listed := by
  refine ⟨fun bp hbp => ?_, fun bp hbp => ?_, fun bp hbp => ?_,
    hnodup.imp_of_mem fun {first second} hfirst hsecond hne => ?_⟩
  · obtain ⟨block, hblock, rfl⟩ := hlisted bp hbp
    have := h.bounds hblock
    omega
  · obtain ⟨block, hblock, rfl⟩ := hlisted bp hbp
    have := h.bounds hblock
    simp only [Block.stop] at this
    omega
  · obtain ⟨block, hblock, rfl⟩ := hlisted bp hbp
    have := h.bounds hblock
    simp only [Block.stop] at this
    omega
  · obtain ⟨block, hblock, rfl⟩ := hlisted first hfirst
    obtain ⟨other, hother, rfl⟩ := hlisted second hsecond
    have hdisjoint := h.tiles.disjoint hblock hother fun heq => hne (heq ▸ rfl)
    have hblockBounds := h.bounds hblock
    have hotherBounds := h.bounds hother
    simp only [Block.stop] at hdisjoint
    omega

/-- The chain stays when the bytes of its tags stay. -/
theorem congr (h : heap.Chained layout) {changed : Nat → Prop} (hedits : heap.Edits after changed)
    (hprologue : ∀ address, heap.prologue.InTags address → ¬ changed address)
    (hblocks : ∀ block ∈ layout.blocks, ∀ address, block.InTags address → ¬ changed address)
    (hepilogue : ∀ address, layout.stop - 4 ≤ address → address < layout.stop →
      ¬ changed address) : after.Chained layout := by
  have hstart := h.start_le
  have hlow := h.eight_le_start
  have hstop : layout.stop = heap.memory.size := h.stop_eq
  have hsame := hedits.byte_eq
  constructor
  case settings_valid => exact hedits.settings_eq ▸ h.settings_valid
  case start_pos => exact hedits.start_eq ▸ h.start_pos
  case start_aligned => exact hedits.start_eq ▸ h.start_aligned
  case stop_eq => exact h.stop_eq.trans hedits.size_eq.symm
  case stop_le => exact (Nat.le_of_eq hedits.size_eq).trans h.stop_le
  case tiles => exact hedits.start_eq ▸ h.tiles
  case minBlock_le => exact hedits.settings_eq ▸ h.minBlock_le
  case size_aligned => exact h.size_aligned
  case prologue_marked =>
    have heq : after.prologue = heap.prologue := by rw [prologue, prologue, hedits.start_eq]
    rw [heq]
    exact h.prologue_marked.congr (show 4 ≤ heap.start by omega) (by simp [prologue])
      fun address haddress => hsame address (hprologue address haddress)
  case marked =>
    intro block hblock
    have hbounds := h.bounds hblock
    exact (h.marked block hblock).congr (by omega) (by omega)
      fun address haddress => hsame address (hblocks block hblock address haddress)
  case epilogue =>
    rw [← h.epilogue]
    refine Memory.tag_congr fun address hle hlt => hsame address (hepilogue address hle ?_)
    simp only [wordSize] at hlt
    omega

/-- Some blocks are replaced by others that fill the same addresses and are marked. -/
theorem retile (h : heap.Chained layout) (before old new later : List Block) {first stop : Nat}
    {changed : Nat → Prop} (hblocks : layout.blocks = before ++ old ++ later)
    (hbefore : Tiles (heap.start + overhead) before first) (hnew : Tiles first new stop)
    (hlater : Tiles stop later layout.stop) (hedits : heap.Edits after changed)
    (hchanged : ∀ address, changed address → first - 4 ≤ address ∧ address < stop - 4)
    (hmarked : ∀ block ∈ new, after.memory.Marked block)
    (hmin : ∀ block ∈ new, heap.settings.minBlock ≤ block.size)
    (haligned : ∀ block ∈ new, block.size % 8 = 0) :
    after.Chained { layout with blocks := before ++ new ++ later } := by
  have hlow := h.eight_le_start
  have hfirstLe : heap.start + 8 ≤ first := hbefore.first_le_stop
  have hlaterLe : stop ≤ layout.stop := hlater.first_le_stop
  have hold : ∀ block ∈ before ++ later, block ∈ layout.blocks := by
    rw [hblocks]
    simp +contextual [or_imp]
  have hall : ∀ {P : Block → Prop}, (∀ block ∈ before ++ later, P block) →
      (∀ block ∈ new, P block) → ∀ block ∈ before ++ new ++ later, P block := by
    intro P hout hin
    simp only [List.forall_mem_append] at hout ⊢
    exact ⟨⟨hout.1, hin⟩, hout.2⟩
  -- the bytes that change lie between the blocks that stay
  have hsame : ∀ address, address < first - 4 ∨ stop - 4 ≤ address →
      after.memory.byte address = heap.memory.byte address := by
    intro address haddress
    refine hedits.byte_eq address fun hin => ?_
    have := hchanged address hin
    omega
  have hmarkedKept : ∀ block ∈ before ++ later, after.memory.Marked block := by
    intro block hblock
    have hbounds := h.bounds (hold block hblock)
    have hplace := hbefore.outside hlater hblock
    refine (h.marked block (hold block hblock)).congr (by omega) (by omega) fun address hin =>
      hsame address ?_
    simp only [Block.InTags, Block.stop, overhead, wordSize] at hin hplace
    omega
  constructor
  case settings_valid => exact hedits.settings_eq ▸ h.settings_valid
  case start_pos => exact hedits.start_eq ▸ h.start_pos
  case start_aligned => exact hedits.start_eq ▸ h.start_aligned
  case stop_eq => exact h.stop_eq.trans hedits.size_eq.symm
  case stop_le => exact (Nat.le_of_eq hedits.size_eq).trans h.stop_le
  case tiles =>
    rw [hedits.start_eq]
    exact tiles_append.2 ⟨stop, tiles_append.2 ⟨first, hbefore, hnew⟩, hlater⟩
  case minBlock_le =>
    rw [hedits.settings_eq]
    exact hall (fun block hblock => h.minBlock_le block (hold block hblock)) hmin
  case size_aligned =>
    exact hall (fun block hblock => h.size_aligned block (hold block hblock)) haligned
  case prologue_marked =>
    have heq : after.prologue = heap.prologue := by rw [prologue, prologue, hedits.start_eq]
    rw [heq]
    refine h.prologue_marked.congr (show 4 ≤ heap.start by omega) (by simp [prologue])
      fun address hin => hsame address (.inl ?_)
    simp only [Block.InTags, Block.stop, prologue, overhead, wordSize] at hin
    omega
  case marked => exact hall hmarkedKept hmarked
  case epilogue =>
    rw [← h.epilogue]
    refine Memory.tag_congr fun address hle hlt => hsame address (.inr ?_)
    simp only [wordSize] at hle
    omega

end Chained

namespace Sound

theorem exists_block (h : heap.Sound layout) {bp : Nat} (hbp : bp ∈ layout.order) :
    ∃ block ∈ layout.blocks, block.allocated = false ∧ block.address = bp :=
  mem_freeAddresses.1 (h.order_free bp hbp)

/-- A heap of the same bytes over another provider has the same layout. -/
theorem congr_region (h : heap.Sound layout) {other : Region σ}
    (hmemory : other.memory = heap.memory) : Sound { heap with toRegion := other } layout := by
  obtain ⟨provider, memory⟩ := other
  obtain rfl : memory = heap.memory := hmemory
  exact { h with lists := { h.lists with } }

/-- An edit of links leaves all tags alone, so only the list has to be looked at. -/
theorem relist (h : heap.Sound layout) {listed order : List Nat}
    (hedits : heap.Edits after (InSlots listed))
    (hlisted : ∀ bp ∈ listed, bp ∈ freeAddresses layout.blocks) (hlists : after.Lists order)
    (hnodup : order.Nodup) (hfree : ∀ bp ∈ order, bp ∈ freeAddresses layout.blocks) :
    after.Sound { layout with order } := by
  have hchained : after.Chained layout := by
    refine h.toChained.congr hedits ?_ ?_ ?_
    · rintro address haddress ⟨bp, hbp, hin⟩
      obtain ⟨block, hblock, -, rfl⟩ := mem_freeAddresses.1 (hlisted bp hbp)
      have hbounds := h.bounds hblock
      simp only [Block.InTags, Block.stop, prologue, overhead, wordSize] at haddress
      omega
    · rintro block hblock address haddress ⟨bp, hbp, hin⟩
      obtain ⟨other, hother, -, rfl⟩ := mem_freeAddresses.1 (hlisted bp hbp)
      have hblockBounds := h.bounds hblock
      have hotherBounds := h.bounds hother
      simp only [Block.InTags, Block.stop, overhead, wordSize] at haddress hblockBounds hotherBounds
      by_cases heq : block = other
      · subst heq
        omega
      · have hdisjoint := h.tiles.disjoint hblock hother heq
        simp only [Block.stop] at hdisjoint
        omega
    · rintro address hle hlt ⟨bp, hbp, hin⟩
      obtain ⟨block, hblock, -, rfl⟩ := mem_freeAddresses.1 (hlisted bp hbp)
      have hbounds := h.bounds hblock
      have hstop : layout.stop = heap.memory.size := h.stop_eq
      simp only [Block.stop] at hbounds
      omega
  exact { toChained := { hchained with }
          lists := hlists
          order_nodup := hnodup
          order_free := hfree }

/-- Some blocks, none of them listed, are replaced by others that fill the same addresses. -/
theorem retile (h : heap.Sound layout) (before old new later : List Block) {first stop : Nat}
    {changed : Nat → Prop} (hblocks : layout.blocks = before ++ old ++ later)
    (hbefore : Tiles (heap.start + overhead) before first) (hnew : Tiles first new stop)
    (hlater : Tiles stop later layout.stop) (hedits : heap.Edits after changed)
    (hchanged : ∀ address, changed address → first - 4 ≤ address ∧ address < stop - 4)
    (hfree : after.free = heap.free) (hmarked : ∀ block ∈ new, after.memory.Marked block)
    (hmin : ∀ block ∈ new, heap.settings.minBlock ≤ block.size)
    (haligned : ∀ block ∈ new, block.size % 8 = 0)
    (hunlisted : ∀ block ∈ old, block.address ∉ layout.order) :
    after.Sound { layout with blocks := before ++ new ++ later } := by
  -- the listed blocks are among those that stay, so their links stay, too
  have hwhere : ∀ bp ∈ layout.order, ∃ block ∈ before ++ later,
      block.allocated = false ∧ block.address = bp := by
    intro bp hbp
    obtain ⟨block, hblock, hblockFree, rfl⟩ := h.exists_block hbp
    refine ⟨block, ?_, hblockFree, rfl⟩
    have hnot : block ∉ old := fun hmem => hunlisted block hmem hbp
    rw [hblocks] at hblock
    simpa [hnot] using hblock
  have hlinked : after.memory.Linked none layout.order := by
    refine h.lists.linked.congr fun bp hbp address hle hlt => hedits.byte_eq address fun hin => ?_
    obtain ⟨block, hblock, -, rfl⟩ := hwhere bp hbp
    have hmem : block ∈ layout.blocks := by
      rw [hblocks]
      simp only [List.mem_append] at hblock ⊢
      tauto
    have hbounds := h.bounds hmem
    have hplace := hbefore.outside hlater hblock
    have hrange := hchanged address hin
    simp only [Block.stop] at hplace
    omega
  constructor
  case toChained =>
    exact h.toChained.retile before old new later hblocks hbefore hnew hlater hedits hchanged
      hmarked hmin haligned
  case lists => exact ⟨hlinked, hfree ▸ h.lists.head_eq, hfree ▸ h.lists.count_eq⟩
  case order_nodup => exact h.order_nodup
  case order_free =>
    intro bp hbp
    obtain ⟨block, hblock, hblockFree, rfl⟩ := hwhere bp hbp
    refine mem_freeAddresses.2 ⟨block, ?_, hblockFree, rfl⟩
    simp only [List.mem_append] at hblock ⊢
    tauto

/-! ## Steps -/

/-- The links of free blocks are among the bytes that a heap uses for itself. -/
theorem bookkeeping_of_inSlots {listed : List Nat}
    (hlisted : ∀ bp ∈ listed, bp ∈ freeAddresses layout.blocks) {address : Nat}
    (hin : InSlots listed address) : layout.Bookkeeping address := by
  obtain ⟨bp, hbp, hrange⟩ := hin
  obtain ⟨block, hblock, hfree, rfl⟩ := mem_freeAddresses.1 (hlisted bp hbp)
  exact .inl ⟨block, hblock, .inr ⟨hfree, hrange⟩⟩

/-- A free block can be put in front of the list. -/
theorem run_enlist (h : heap.Sound layout) {bp : Nat} (hbp : bp ∈ freeAddresses layout.blocks)
    (hunlisted : bp ∉ layout.order) :
    ∃ after, (enlist bp).run heap = .ok () after ∧
      after.Sound { layout with order := bp :: layout.order } ∧
      heap.Edits after layout.Bookkeeping := by
  have hfree : ∀ listed ∈ bp :: layout.order, listed ∈ freeAddresses layout.blocks :=
    List.forall_mem_cons.2 ⟨hbp, h.order_free⟩
  have hnodup : (bp :: layout.order).Nodup := List.nodup_cons.2 ⟨hunlisted, h.order_nodup⟩
  have hslots : heap.memory.Slots (bp :: layout.order) := by
    refine h.slots hnodup fun listed hlisted => ?_
    obtain ⟨block, hblock, -, haddress⟩ := mem_freeAddresses.1 (hfree listed hlisted)
    exact ⟨block, hblock, haddress⟩
  obtain ⟨after, hrun, hlists, hedits⟩ := h.lists.run_enlist hslots
  have hnodes : ∀ node ∈ bp :: layout.order.head?.toList, node ∈ freeAddresses layout.blocks := by
    refine List.forall_mem_cons.2 ⟨hbp, fun node hnode => h.order_free node ?_⟩
    exact List.mem_of_mem_head? (Option.mem_toList.1 hnode)
  exact ⟨after, hrun, h.relist hedits hnodes hlists hnodup hfree,
    hedits.mono fun _ => bookkeeping_of_inSlots hnodes⟩

/-- A listed block can be taken out of the list. -/
theorem run_delist (h : heap.Sound layout) {bp : Nat} (hbp : bp ∈ layout.order) :
    ∃ after, (delist bp).run heap = .ok () after ∧
      after.Sound { layout with order := layout.order.erase bp } ∧
      heap.Edits after layout.Bookkeeping := by
  have hslots : heap.memory.Slots layout.order := by
    refine h.slots h.order_nodup fun listed hlisted => ?_
    obtain ⟨block, hblock, -, haddress⟩ := h.exists_block hlisted
    exact ⟨block, hblock, haddress⟩
  obtain ⟨front, rest, horder⟩ := List.append_of_mem hbp
  have hnodup := h.order_nodup
  have hfree := h.order_free
  have hlists := h.lists
  rw [horder] at hslots hnodup hfree hlists
  have hfront : bp ∉ front := fun hmem =>
    (List.nodup_append.1 hnodup).2.2 bp hmem bp List.mem_cons_self rfl
  have herase : layout.order.erase bp = front ++ rest := by
    rw [horder, List.erase_append_right _ hfront, List.erase_cons_head]
  obtain ⟨after, hrun, hlists, hedits⟩ := hlists.run_delist hslots
  have hnodes : ∀ node ∈ bp :: front.getLast?.toList ++ rest.head?.toList,
      node ∈ freeAddresses layout.blocks := by
    intro node hnode
    apply hfree
    simp only [List.mem_append, List.mem_cons, Option.mem_toList] at hnode ⊢
    rcases hnode with (rfl | hlast) | hhead
    · exact .inr (.inl rfl)
    · exact .inl (List.mem_of_mem_getLast? hlast)
    · exact .inr (.inr (List.mem_of_mem_head? hhead))
  have hsublist : (front ++ rest).Sublist (front ++ bp :: rest) :=
    (List.sublist_cons_self bp rest).append_left front
  refine ⟨after, hrun, ?_, hedits.mono fun _ => bookkeeping_of_inSlots hnodes⟩
  rw [herase]
  exact h.relist hedits hnodes hlists (hnodup.sublist hsublist)
    fun listed hlisted => hfree listed (hsublist.subset hlisted)

/-- Some blocks, none of them listed, can be made one by writing two tags. -/
theorem run_setTags (h : heap.Sound layout) (block : Block) (before old later : List Block)
    (hblocks : layout.blocks = before ++ old ++ later)
    (hbefore : Tiles (heap.start + overhead) before block.address)
    (hlater : Tiles block.stop later layout.stop) (hmin : heap.settings.minBlock ≤ block.size)
    (haligned : block.size % 8 = 0) (hunlisted : ∀ block ∈ old, block.address ∉ layout.order) :
    ∃ after, (setTags block.address block.size block.allocated).run heap = .ok () after ∧
      after.Sound { layout with blocks := before ++ block :: later } ∧
      heap.Edits after block.InTags := by
  have hlow := hbefore.first_le_stop
  have hhigh := hlater.first_le_stop
  have hstop : layout.stop = heap.memory.size := h.stop_eq
  have hlimit := h.stop_le
  have hleast := h.settings_valid.smallest_le.trans hmin
  simp only [overhead, wordSize, smallestBlock, heapLimit, Heap.stop] at hlow hlimit hleast
  have hstopEq : block.stop = block.address + block.size := rfl
  have hedits : heap.Edits (heap.withMemory (heap.memory.mark block)) block.InTags :=
    .withMemory heap (Memory.size_mark ..) fun address hout =>
      Memory.byte_mark_of_outside (by omega) (by omega) hout
  have hsound := h.retile before old [block] later hblocks hbefore
    (tiles_cons.2 ⟨rfl, by omega, tiles_nil.2 rfl⟩) hlater hedits (fun address hin => ?_) rfl
    (by simpa using Memory.marked_mark (by omega) (by omega) (by omega)) (by simpa using hmin)
    (by simpa using haligned) hunlisted
  · have hspace : block.stop < addressSpace := by simp only [addressSpace]; omega
    refine ⟨_, run_setTags_block block haligned (by omega) (by omega) (by omega) (by omega)
      (by omega) hspace, ?_, hedits⟩
    simpa using hsound
  · simp only [Block.InTags, overhead, wordSize] at hin
    omega

end Sound

/-- The layout of a settled heap lists exactly its free blocks. -/
theorem Sound.orderly (h : heap.Sound layout) (hsettled : layout.Settled) :
    layout.Orderly (heap.start + overhead) where
  settled := hsettled
  tiles := h.tiles
  order_nodup := h.order_nodup
  order_free := h.order_free

/-- A sound heap with a settled layout is well-formed. -/
theorem Sound.wellFormed (h : heap.Sound layout) (hsettled : layout.Settled) :
    heap.WellFormed layout where
  stop_eq := h.stop_eq
  prologue_tagged := h.prologue_marked.tagged (by simp [prologue]) (by simp [prologue])
  consecutive := h.tiles.consecutive
  tagged block hblock := by
    have hbounds := h.bounds hblock
    simp only [Block.stop] at hbounds
    exact (h.marked block hblock).tagged (by omega) (by omega)
  size_pos := h.tiles.size_pos
  epilogue := by
    rw [h.epilogue]
    rfl
  apart := hsettled.apart
  order_nodup := h.order_nodup
  mem_order bp := ⟨h.order_free bp, hsettled.listed bp⟩
  linked := h.lists.linked
  head_eq := h.lists.head_eq
  count_eq := h.lists.count_eq
  settings_valid := h.settings_valid
  start_pos := h.start_pos
  start_aligned := h.start_aligned
  minBlock_le := h.minBlock_le
  stop_le := h.stop_le

end Heap

end BoundaryTag
