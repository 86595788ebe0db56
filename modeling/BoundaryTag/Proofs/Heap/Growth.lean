import BoundaryTag.Proofs.Heap.Frame
import BoundaryTag.Proofs.Heap.Settling

/-!
# Growing a heap

`Heap.Sound.run_appendFree` says that a granted request puts a free block at the end of the layout,
and `Heap.Sound.run_expand` that together with settling this is `Layout.expand`. A request that is
not granted leaves the memory alone (`Heap.Sound.run_expand_refused`).
-/

namespace BoundaryTag

open HeapM

variable {σ ε : Type} [Provider σ ε] [LawfulProvider σ] {heap : Heap σ} {layout : Layout}
  {block : Block} {count : Nat}

/-- A multiple of the alignment is its own rounding. -/
theorem roundUp?_of_aligned {value : Nat} (haligned : value % 8 = 0)
    (hspace : value + 7 < 0x1_0000_0000_0000_0000) : roundUp? value alignment = some value := by
  unfold roundUp?
  rw [if_pos (by simp only [alignment, addressSpace]; omega)]
  simp only [alignment, Option.some.injEq]
  omega

namespace Heap

/-! ## Asking for memory -/

/-- A request that is granted appends its bytes. -/
theorem run_grow_of_grants (h : heap.toRegion.grants count = true) :
    ∃ region, (grow count).run heap = .ok heap.memory.size { heap with toRegion := region } ∧
      heap.memory.Appended region.memory count := by
  cases hgrow : Provider.grow count heap.toRegion with
  | ok base region =>
      obtain ⟨rfl, happended⟩ := LawfulProvider.appended hgrow
      refine ⟨region, ?_, happended⟩
      show grow count heap = _
      rw [grow, hgrow]
  | error reason region => simp [Region.grants, hgrow] at h

/-- A request that is not granted is refused, and the memory stays. -/
theorem run_grow_of_not_grants (h : heap.toRegion.grants count = false) :
    ∃ region, (grow count).run heap =
        .error (.refused .outOfMemory) { heap with toRegion := region } ∧
      region.memory = heap.memory := by
  cases hgrow : Provider.grow count heap.toRegion with
  | ok base region => simp [Region.grants, hgrow] at h
  | error reason region =>
      refine ⟨region, ?_, LawfulProvider.kept hgrow⟩
      show grow count heap = _
      rw [grow, hgrow]

/-! ## The last block -/

omit [Provider σ ε] [LawfulProvider σ] in
/-- Behind the last block, whose header is written, comes the epilogue. -/
theorem run_closeBehind
    (hheader : heap.memory.tag (block.address - wordSize) = .ofSize block.size block.allocated)
    (haligned : block.size % 8 = 0) (hfits : block.size < 0x1_0000_0000) (hlow : 4 ≤ block.address)
    (hend : block.stop ≤ heap.memory.size) (hspace : block.stop < addressSpace) :
    (closeBehind block.address).run heap = .ok () (heap.withMemory
      (heap.memory.setWord (block.stop - wordSize) Tag.epilogue.bits)) := by
  have hstop : block.stop = block.address + block.size := rfl
  have hread : heap.header block.address = .ok (.ofSize block.size block.allocated) := by
    rw [header_of_le hlow (by omega), ← hheader]
    rfl
  have hnext : heap.blockAfter block.address = .ok block.stop := by
    rw [blockAfter, blockSize_of_header hread, Tag.size_ofSize haligned hfits]
    exact Address.add_of_lt hspace
  rw [closeBehind, run_bind_of_ok (run_observe_of_ok hnext),
    run_bind_of_ok (run_ofExcept_of_ok (headerOffset_of_le (by omega)) _)]
  exact run_setTagAt (by omega)

omit [Provider σ ε] [LawfulProvider σ] in
/-- Writing the tags of the last block and the epilogue closes the heap. The block may be empty, and
its footer lies before its header then. -/
theorem run_close (heap : Heap σ) (block : Block) (haligned : block.size % 8 = 0)
    (hfits : block.size < 0x1_0000_0000) (hlow : 4 ≤ block.address) (hfooter : 8 ≤ block.stop)
    (hend : block.stop ≤ heap.memory.size) (hspace : block.stop < addressSpace) :
    (do setTags block.address block.size block.allocated; closeBehind block.address
        : HeapM σ Unit).run heap = .ok () (heap.withMemory (heap.memory.close block)) := by
  have hstop : block.stop = block.address + block.size := rfl
  have htags : (setTags block.address block.size block.allocated).run heap =
      .ok () (heap.withMemory (heap.memory.mark block)) :=
    run_setTags haligned hfits hlow (by omega) hfooter (by omega) hspace
  have hheader : (heap.memory.mark block).tag (block.address - wordSize) = _ :=
    Memory.header_mark haligned hlow hfooter (by omega)
  have hclose : (closeBehind block.address).run (heap.withMemory (heap.memory.mark block)) = _ :=
    run_closeBehind hheader haligned hfits hlow (by simpa) hspace
  rw [run_bind_of_ok htags, hclose]
  rfl

/-! ## Appending a block -/

omit [LawfulProvider σ] in
/-- With this many bytes more, the heap is not too large, and the provider grants them. -/
def CanGrow (heap : Heap σ) (count : Nat) : Prop :=
  heap.stop + count ≤ heapLimit ∧ heap.toRegion.grants count = true

/-- The heap with the memory of this region, which goes on behind the old end with a free block, and
is closed behind it. -/
def extended (heap : Heap σ) (region : Region σ) (count : Nat) : Heap σ :=
  { heap with toRegion := ⟨region.provider, region.memory.close ⟨heap.stop, count, false⟩⟩ }

/-- A request that is granted appends a free block and closes the heap behind it, whatever the bytes
of the heap are. -/
theorem run_appendFree_of_grants {request : Nat}
    (hroundUp : roundUp? request alignment = some count) (hlow : 8 ≤ heap.stop)
    (hgrow : heap.CanGrow count) :
    ∃ region : Region σ, heap.memory.Appended region.memory count ∧
      (appendFree request).run heap = .ok heap.stop (heap.extended region count) := by
  obtain ⟨hroom, hgrants⟩ := hgrow
  obtain ⟨region, hgrow, happended⟩ := run_grow_of_grants hgrants
  have haligned := (roundUp?_alignment hroundUp).1
  have hleft : Address.sub heapLimit heap.stop = .ok (heapLimit - heap.stop) :=
    Address.sub_of_le ((Nat.le_add_right ..).trans hroom)
  have hend : heap.memory.size + count = Heap.stop { heap with toRegion := region } :=
    happended.size_eq.symm
  simp only [heapLimit] at hroom
  have hclose := run_close { heap with toRegion := region } ⟨heap.stop, count, false⟩ haligned
    (show count < 0x1_0000_0000 by omega) (show 4 ≤ heap.stop by omega)
    (show 8 ≤ heap.stop + count by omega) (Nat.le_of_eq hend)
    (show heap.stop + count < addressSpace by simp only [addressSpace]; omega)
  refine ⟨region, happended, ?_⟩
  rw [appendFree, hroundUp]
  dsimp only
  rw [run_bind_of_ok (run_observe_of_ok hleft), if_neg (by simp only [heapLimit]; omega),
    run_bind_of_ok hgrow, run_bind_of_ok (run_get _), if_neg (not_not.2 hend), ← bind_assoc]
  exact run_bind_of_ok hclose

/-- A request that cannot be rounded, leads past the largest heap or is not granted is refused, and
changes no byte. -/
theorem run_appendFree_refused {request : Nat} (hlimit : heap.stop ≤ heapLimit)
    (hrefused : ∀ count, roundUp? request alignment = some count → ¬ heap.CanGrow count) :
    ∃ region, (appendFree request).run heap =
        .error (.refused .outOfMemory) { heap with toRegion := region } ∧
      region.memory = heap.memory := by
  rw [appendFree]
  cases hroundUp : roundUp? request alignment with
  | none => exact ⟨heap.toRegion, rfl, rfl⟩
  | some count =>
      dsimp only
      by_cases hroom : heap.stop + count ≤ heapLimit
      · have hgrants : heap.toRegion.grants count = false :=
          Bool.eq_false_iff.2 fun hgranted => hrefused count hroundUp ⟨hroom, hgranted⟩
        obtain ⟨region, hgrow, hmemory⟩ := run_grow_of_not_grants hgrants
        refine ⟨region, ?_, hmemory⟩
        rw [run_bind_of_ok (run_observe_of_ok (Address.sub_of_le hlimit)), if_neg (by omega),
          run_bind_of_error hgrow]
      · refine ⟨heap.toRegion, ?_, rfl⟩
        rw [run_bind_of_ok (run_observe_of_ok (Address.sub_of_le hlimit)), if_pos (by omega)]
        rfl

/-! ## Growing -/

namespace Sound

omit [Provider σ ε] [LawfulProvider σ] in
/-- A heap whose memory was lengthened by a block, and closed behind it, spells the layout with this
block at the end. -/
theorem append (h : heap.Sound layout) {memory : Memory} (hmin : heap.settings.minBlock ≤ count)
    (haligned : count % 8 = 0) (hroom : layout.stop + count ≤ heapLimit)
    (hsize : memory.size = layout.stop + count)
    (hmarked : memory.Marked ⟨layout.stop, count, false⟩)
    (hepilogue : memory.tag (layout.stop + count - wordSize) = .epilogue)
    (hsame : ∀ address < layout.stop - 4, memory.byte address = heap.memory.byte address) :
    (heap.withMemory memory).Sound
      { layout with
        blocks := layout.blocks ++ [⟨layout.stop, count, false⟩]
        stop := layout.stop + count } := by
  have hstart := h.start_le
  have hlow := h.eight_le_start
  have hstop : layout.stop = heap.memory.size := h.stop_eq
  have hleast := h.settings_valid.smallest_le.trans hmin
  simp only [smallestBlock, overhead, wordSize] at hleast
  -- the old epilogue is where the header of the new block is; what is below it stays
  have hold : ∀ block ∈ layout.blocks, memory.Marked block := fun block hblock => by
    have hbounds := h.bounds hblock
    refine (h.marked block hblock).congr (by omega) (by omega) fun address hin => hsame address ?_
    simp only [Block.InTags, Block.stop, overhead, wordSize] at hin hbounds
    omega
  have hnew : ∀ {P : Block → Prop}, (∀ block ∈ layout.blocks, P block) →
      P ⟨layout.stop, count, false⟩ →
        ∀ block ∈ layout.blocks ++ [⟨layout.stop, count, false⟩], P block := fun hblocks hnew =>
    List.forall_mem_append.2 ⟨hblocks, List.forall_mem_singleton.2 hnew⟩
  have hprologue : memory.Marked heap.prologue := by
    refine h.prologue_marked.congr (show 4 ≤ heap.start by omega) (by simp [prologue])
      fun address hin => hsame address ?_
    simp only [Block.InTags, Block.stop, prologue, overhead, wordSize] at hin
    omega
  have hlinked : memory.Linked none layout.order := by
    refine h.lists.linked.congr fun bp hbp address hle hlt => hsame address ?_
    obtain ⟨block, hblock, -, rfl⟩ := h.exists_block hbp
    have hbounds := h.bounds hblock
    simp only [Block.stop] at hbounds
    omega
  constructor
  case toChained =>
    exact
      { settings_valid := h.settings_valid
        start_pos := h.start_pos
        start_aligned := h.start_aligned
        stop_eq := hsize.symm
        stop_le := (Nat.le_of_eq hsize).trans hroom
        tiles := tiles_append_cons.2 ⟨h.tiles, show 0 < count by omega, tiles_nil.2 rfl⟩
        minBlock_le := hnew h.minBlock_le hmin
        size_aligned := hnew h.size_aligned haligned
        prologue_marked := hprologue
        marked := hnew hold hmarked
        epilogue := hepilogue }
  case lists => exact ⟨hlinked, h.lists.head_eq, h.lists.count_eq⟩
  case order_nodup => exact h.order_nodup
  case order_free =>
    intro bp hbp
    rw [freeAddresses_append]
    exact List.mem_append_left _ (h.order_free bp hbp)

/-- A granted request puts a free block at the end of the heap, which is not listed yet. -/
theorem run_appendFree (h : heap.Sound layout) (haligned : count % 8 = 0)
    (hmin : heap.settings.minBlock ≤ count) (hroom : layout.stop + count ≤ heapLimit)
    (hgrants : heap.toRegion.grants count = true) :
    ∃ grown, (appendFree count).run heap = .ok layout.stop grown ∧
      grown.Sound
        { layout with
          blocks := layout.blocks ++ [⟨layout.stop, count, false⟩]
          stop := layout.stop + count } ∧
      heap.Spares grown layout.held := by
  have hstop : layout.stop = heap.memory.size := h.stop_eq
  have hstart := h.start_le
  have hlow := h.eight_le_start
  have hleast := h.settings_valid.smallest_le.trans hmin
  simp only [smallestBlock, overhead, wordSize, heapLimit] at hleast hroom
  have hgrow : heap.CanGrow count :=
    ⟨show heap.memory.size + count ≤ heapLimit by simp only [heapLimit]; omega, hgrants⟩
  obtain ⟨region, ⟨hsize, hbytes⟩, hrun⟩ := run_appendFree_of_grants
    (roundUp?_of_aligned haligned (by omega)) (show 8 ≤ heap.memory.size by omega) hgrow
  rw [extended, Heap.stop, ← hstop] at hrun
  let new : Block := ⟨layout.stop, count, false⟩
  have hnewStop : new.stop = layout.stop + count := rfl
  have hend : new.stop = region.memory.size := by omega
  have hsame : ∀ address < layout.stop - 4,
      (region.memory.close new).byte address = heap.memory.byte address := fun address haddress =>
    (Memory.byte_close_of_lt (show 4 ≤ layout.stop by omega) (show 8 ≤ count by omega)
      haddress).trans (hbytes address (by omega))
  have hclosed : (region.memory.close new).size = layout.stop + count :=
    (Memory.size_close ..).trans hend.symm
  have hsound := h.append hmin haligned hroom hclosed
    (Memory.marked_close (show 4 ≤ layout.stop by omega) (show 8 ≤ count by omega)
      (Nat.le_of_eq hend)) (Memory.tag_close (by omega) (Nat.le_of_eq hend)) hsame
  refine ⟨{ heap with toRegion := ⟨region.provider, region.memory.close new⟩ }, hrun,
    hsound.congr_region rfl, rfl, rfl, ?_, fun address haddress => hsame address ?_,
    fun block hblock address hin => hsame address ?_⟩
  · show heap.memory.size ≤ (region.memory.close new).size
    omega
  · simp only [wordSize] at haddress
    omega
  · have hbounds := h.bounds (Layout.mem_held.1 hblock).1
    simp only [Block.InPayload, overhead, wordSize] at hin
    omega

/-- Growing a settled heap by a granted request leads to a heap that spells the grown layout. -/
theorem run_expand (h : heap.Sound layout) (hsettled : layout.Settled) (haligned : count % 8 = 0)
    (hmin : heap.settings.minBlock ≤ count) (hroom : layout.stop + count ≤ heapLimit)
    (hgrants : heap.toRegion.grants count = true) :
    ∃ grown, (expand count).run heap = .ok (layout.expand count).1 grown ∧
      grown.Sound (layout.expand count).2 ∧ (layout.expand count).2.Settled ∧
      heap.Spares grown layout.held := by
  obtain ⟨appended, happend, hsound, hspares⟩ := h.run_appendFree haligned hmin hroom hgrants
  have hpending := (h.orderly hsettled).pending_append count
  obtain ⟨grown, hsettle, hgrown, hgrownSettled, hedits⟩ := hsound.run_settle hpending
  have hheld := Layout.held_append layout hpending.blocks_eq rfl
  refine ⟨grown, ?_, hgrown, hgrownSettled,
    hspares.trans (hedits.spares hsound.toChained hgrown.toChained ?_ ?_)⟩
  · rw [expand, run_bind_of_ok happend]
    exact hsettle
  · rw [hheld]
    exact List.Subset.refl _
  · rw [Layout.held_settle, hheld]
    exact List.Subset.refl _

/-- A request that leads past the largest heap or is not granted is refused, and changes no byte. -/
theorem run_expand_refused (h : heap.Sound layout) (haligned : count % 8 = 0)
    (hcount : count ≤ heapLimit)
    (hrefused : ¬ (layout.stop + count ≤ heapLimit ∧ heap.toRegion.grants count = true)) :
    ∃ region, (expand count).run heap =
        .error (.refused .outOfMemory) { heap with toRegion := region } ∧
      region.memory = heap.memory := by
  have hroundUp : roundUp? count alignment = some count :=
    roundUp?_of_aligned haligned (by simp only [heapLimit] at hcount; omega)
  have hnone : ∀ rounded, roundUp? count alignment = some rounded → ¬ heap.CanGrow rounded := by
    intro rounded hrounded
    obtain rfl := Option.some.inj (hroundUp.symm.trans hrounded)
    rw [CanGrow, ← h.stop_eq]
    exact hrefused
  obtain ⟨region, happend, hmemory⟩ := run_appendFree_refused h.stop_le hnone
  refine ⟨region, ?_, hmemory⟩
  rw [expand]
  exact run_bind_of_error happend

end Sound

end Heap

end BoundaryTag
