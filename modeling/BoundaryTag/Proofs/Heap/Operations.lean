import BoundaryTag.Proofs.Heap.Growth
import BoundaryTag.Proofs.Heap.Placement

/-!
# Allocating, freeing and moving blocks

On a settled heap, every operation does to the layout what its counterpart on layouts does.
-/

namespace BoundaryTag

open HeapM

variable {σ ε : Type} {heap : Heap σ} {layout next : Layout} {block : Block}
  {request size count address : Nat} {reason : Refusal} {settings : Settings}

/-- What a heap asks for when a request needs a block of this size. -/
theorem Settings.Valid.growth (h : settings.Valid) (haligned : size % 8 = 0)
    (hlargest : size ≤ largestBlock) :
    max size settings.chunkSize % 8 = 0 ∧ max size settings.chunkSize ≤ heapLimit := by
  have hchunk := h.chunkSize_aligned
  have hlimit := h.chunkSize_le
  simp only [alignment, largestBlock, heapLimit] at *
  omega

namespace Heap.Sound

/-- First fit finds a free block that is large enough. -/
theorem exists_of_firstFit (h : heap.Sound layout) (hfound : layout.firstFit size = some address) :
    ∃ block ∈ layout.blocks, block.allocated = false ∧ block.address = address ∧
      size ≤ block.size := by
  obtain ⟨block, hblock, hfree, rfl⟩ := h.exists_block (List.mem_of_find?_eq_some hfound)
  refine ⟨block, hblock, hfree, rfl, ?_⟩
  have hfits : size ≤ layout.sizeAt block.address := by simpa using List.find?_some hfound
  rwa [Layout.sizeAt_address h.tiles hblock] at hfits

/-- A free block that is large enough can be taken. That changes bookkeeping bytes only, and spares
all blocks that are allocated. -/
theorem run_place (h : heap.Sound layout) (hsettled : layout.Settled)
    (hblock : block ∈ layout.blocks) (hfree : block.allocated = false) (hfits : size ≤ block.size)
    (hmin : heap.settings.minBlock ≤ size) (haligned : size % 8 = 0) :
    ∃ after taken, (do
        if (← observe (·.blockSize block.address)) < size then fault .blockTooSmall
        occupy block.address size
        return block.address : HeapM σ Nat).run heap = .ok block.address after ∧
      after.Sound (layout.occupy block.address size heap.settings.minBlock) ∧
      (layout.occupy block.address size heap.settings.minBlock).Settled ∧
      taken.address = block.address ∧ size ≤ taken.size ∧
      (layout.occupy block.address size heap.settings.minBlock).held.Perm (taken :: layout.held) ∧
      (heap.Edits after fun address => layout.Bookkeeping address ∨
        (layout.occupy block.address size heap.settings.minBlock).Bookkeeping address) ∧
      heap.Spares after layout.held := by
  obtain ⟨front, rest, hblocks⟩ := List.append_of_mem hblock
  obtain ⟨after, hrun, hsound, hafterSettled, hedits⟩ :=
    h.run_occupy hsettled hblocks hfree hfits hmin haligned
  obtain ⟨taken, htaken, hsize, hheld⟩ := Layout.held_occupy hblocks h.tiles hfree hfits
  refine ⟨after, taken, ?_, hsound, hafterSettled, htaken, hsize, hheld, hedits,
    hedits.spares h.toChained hsound.toChained (List.Subset.refl _) fun kept hkept => ?_⟩
  · rw [run_bind_of_ok (run_observe_of_ok (h.blockSize_eq hblock)), if_neg (Nat.not_lt.2 hfits),
      run_bind_of_ok hrun]
    rfl
  · exact hheld.mem_iff.2 (List.mem_cons_of_mem _ hkept)

variable [Provider σ ε]

/-- What a request does is told by the layout: it takes the block that first fit finds there, and
the heap grows only if there is none. -/
theorem run_allocate_eq (h : heap.Sound layout) (hrequest : request ≠ 0)
    (hsize : blockSizeFor? request heap.settings.minBlock = some size) :
    (allocate request).run heap = (do
        let bp ← match layout.firstFit size with
          | some bp => pure bp
          | none => expand (max size heap.settings.chunkSize)
        if (← observe (·.blockSize bp)) < size then fault .blockTooSmall
        occupy bp size
        return bp : HeapM σ Nat).run heap := by
  rw [allocate, if_neg hrequest, run_bind_of_ok (run_get _)]
  dsimp only
  rw [hsize]
  dsimp only
  refine (run_bind_of_ok (run_observe_of_ok (h.firstFit_eq size))).trans ?_
  cases layout.firstFit size with
  | none => rfl
  | some bp => rfl

variable [LawfulProvider σ]

/-- The block that a granted growth makes free can be taken. -/
theorem run_place_grown (h : heap.Sound layout) (hsettled : layout.Settled) (hcount : count % 8 = 0)
    (hsize : size ≤ count) (hmin : heap.settings.minBlock ≤ size) (haligned : size % 8 = 0)
    (hlimit : layout.stop + count ≤ heapLimit) (hgranted : heap.toRegion.grants count = true) :
    ∃ after taken, (do
        let bp ← expand count
        if (← observe (·.blockSize bp)) < size then fault .blockTooSmall
        occupy bp size
        return bp : HeapM σ Nat).run heap = .ok (layout.expand count).1 after ∧
      after.Sound ((layout.expand count).2.occupy (layout.expand count).1 size
        heap.settings.minBlock) ∧
      ((layout.expand count).2.occupy (layout.expand count).1 size heap.settings.minBlock).Settled ∧
      taken.address = (layout.expand count).1 ∧ size ≤ taken.size ∧
      ((layout.expand count).2.occupy (layout.expand count).1 size
        heap.settings.minBlock).held.Perm (taken :: layout.held) ∧
      heap.Spares after layout.held := by
  have hpos := h.settings_valid.smallest_le
  simp only [smallestBlock, overhead, wordSize] at hpos
  obtain ⟨grown, hexpand, hgrown, hgrownSettled, hspares⟩ :=
    h.run_expand hsettled hcount (hmin.trans hsize) hlimit hgranted
  obtain ⟨block, hblock, haddress, hfree, hfits⟩ :=
    Layout.exists_expand h.tiles (show 0 < count by omega)
  obtain ⟨after, taken, hrun, hsound, hafterSettled, htakenAddress, htaken, hheld, -, hspares'⟩ :=
    hgrown.run_place hgrownSettled hblock hfree (hsize.trans hfits) (hspares.settings_eq ▸ hmin)
      haligned
  rw [hspares.settings_eq, haddress] at hsound hafterSettled hheld
  rw [Layout.held_expand] at hheld hspares'
  refine ⟨after, taken, ?_, hsound, hafterSettled, htakenAddress.trans haddress, htaken, hheld,
    hspares.trans hspares'⟩
  rw [run_bind_of_ok hexpand, ← haddress]
  exact hrun

/-- A request that the layout meets is met. -/
theorem run_allocate_of_ok (h : heap.Sound layout) (hsettled : layout.Settled)
    (hallocate : layout.allocate heap.settings heap.toRegion.grants request = .ok (address, next)) :
    ∃ after taken, (allocate request).run heap = .ok address after ∧ after.Sound next ∧
      next.Settled ∧ taken.address = address ∧ request + overhead ≤ taken.size ∧
      next.held.Perm (taken :: layout.held) ∧ heap.Spares after layout.held := by
  obtain ⟨size, source, hpos, hsize, rfl, hsource⟩ := Layout.exists_of_allocate hallocate
  obtain ⟨hrequest, hmin, haligned, hlargest⟩ :=
    blockSizeFor?_spec h.settings_valid.minBlock_aligned hsize
  rw [h.run_allocate_eq hpos hsize]
  rcases hsource with ⟨hfound, rfl⟩ | ⟨hnone, hlimit, hgranted, hexpand⟩
  · obtain ⟨block, hblock, hfree, rfl, hfits⟩ := h.exists_of_firstFit hfound
    obtain ⟨after, taken, hrun, hsound, hnextSettled, haddress, htaken, hheld, -, hspares⟩ :=
      h.run_place hsettled hblock hfree hfits hmin haligned
    rw [hfound]
    exact ⟨after, taken, hrun, hsound, hnextSettled, haddress, hrequest.trans htaken, hheld,
      hspares⟩
  · obtain ⟨hcount, -⟩ := h.settings_valid.growth haligned hlargest
    obtain ⟨after, taken, hrun, hsound, hnextSettled, haddress, htaken, hheld, hspares⟩ :=
      h.run_place_grown hsettled hcount (Nat.le_max_left _ _) hmin haligned hlimit hgranted
    rw [hexpand] at hrun hsound hnextSettled haddress hheld
    rw [hnone]
    exact ⟨after, taken, hrun, hsound, hnextSettled, haddress, hrequest.trans htaken, hheld,
      hspares⟩

/-- A request that the layout refuses is refused, and changes no byte. -/
theorem run_allocate_of_error (h : heap.Sound layout)
    (hallocate : layout.allocate heap.settings heap.toRegion.grants request = .error reason) :
    ∃ region, (allocate request).run heap =
        .error (.refused reason) { heap with toRegion := region } ∧
      region.memory = heap.memory := by
  rw [Layout.allocate] at hallocate
  by_cases hzero : request = 0
  · rw [if_pos hzero] at hallocate
    obtain rfl := Except.error.inj hallocate
    rw [allocate, if_pos hzero]
    exact ⟨heap.toRegion, rfl, rfl⟩
  · rw [if_neg hzero] at hallocate
    cases hsize : blockSizeFor? request heap.settings.minBlock with
    | none =>
        rw [hsize] at hallocate
        obtain rfl := Except.error.inj hallocate
        rw [allocate, if_neg hzero, run_bind_of_ok (run_get _)]
        dsimp only
        rw [hsize]
        exact ⟨heap.toRegion, rfl, rfl⟩
    | some size =>
        obtain ⟨hrequest, hmin, haligned, hlargest⟩ :=
          blockSizeFor?_spec h.settings_valid.minBlock_aligned hsize
        rw [hsize] at hallocate
        dsimp only at hallocate
        rw [h.run_allocate_eq hzero hsize]
        cases hfound : layout.firstFit size with
        | some bp =>
            rw [hfound] at hallocate
            exact nomatch hallocate
        | none =>
            rw [hfound] at hallocate
            dsimp only at hallocate
            split at hallocate
            next => exact nomatch hallocate
            next hrefused =>
              obtain rfl := Except.error.inj hallocate
              obtain ⟨hcount, hlimit⟩ := h.settings_valid.growth haligned hlargest
              obtain ⟨region, hexpand, hmemory⟩ := h.run_expand_refused hcount hlimit hrefused
              exact ⟨region, run_bind_of_error hexpand, hmemory⟩

/-! ## Freeing -/

omit [Provider σ ε] [LawfulProvider σ] in
/-- The allocated blocks are different from each other. -/
theorem nodup_held (h : heap.Sound layout) : layout.held.Nodup :=
  (List.Nodup.of_map _ h.tiles.nodup_addresses).filter _

omit [Provider σ ε] [LawfulProvider σ] in
/-- Freeing an allocated block writes its tags and settles it. -/
theorem exists_run_release (h : heap.Sound layout) (hsettled : layout.Settled)
    {before after : List Block} (hblocks : layout.blocks = before ++ block :: after)
    (hallocated : block.allocated = true) :
    ∃ tagged, (setTags block.address block.size false).run heap = .ok () tagged ∧
      (release block.address).run heap = (discard (settle block.address)).run tagged ∧
      tagged.Sound
        { layout with blocks := before ++ { block with allocated := false } :: after } ∧
      heap.Edits tagged { block with allocated := false }.InTags := by
  have hmem : block ∈ layout.blocks := by simp [hblocks]
  have hbounds := h.bounds hmem
  have htiles := h.tiles
  rw [hblocks] at htiles
  obtain ⟨hbefore, -, hafter⟩ := tiles_append_cons.1 htiles
  have hpending := (h.orderly hsettled).pending_free hblocks hallocated
  obtain ⟨tagged, htag, htagged, htags⟩ := h.run_setTags { block with allocated := false } before
    [block] after (by simp [hblocks]) hbefore hafter (h.minBlock_le block hmem)
    (h.size_aligned block hmem) (by simpa using hpending.unlisted)
  have hinside : heap.start < block.address ∧ block.address < heap.stop := by
    simp only [Block.stop, Heap.stop] at hbounds ⊢
    omega
  refine ⟨tagged, htag, ?_, htagged, htags⟩
  rw [release, run_bind_of_ok (run_get heap), if_neg (not_not.2 hinside),
    run_bind_of_ok (run_observe_of_ok (h.isAllocated_eq hmem)), if_neg (not_not.2 hallocated),
    run_bind_of_ok (run_observe_of_ok (h.blockSize_eq hmem)), run_bind_of_ok htag]

omit [Provider σ ε] [LawfulProvider σ] in
/-- Freeing an allocated block changes bookkeeping bytes only, apart from its own payload. -/
theorem edits_release (h : heap.Sound layout) (hsettled : layout.Settled)
    (hblock : block ∈ layout.held) :
    ∃ after, (release block.address).run heap = .ok () after ∧
      after.Sound (layout.release block.address) ∧ (layout.release block.address).Settled ∧
      heap.Edits after fun address => layout.Bookkeeping address ∨ block.InPayload address ∨
        (layout.release block.address).Bookkeeping address := by
  obtain ⟨hmem, hallocated⟩ := Layout.mem_held.1 hblock
  have hbounds := h.bounds hmem
  obtain ⟨front, rest, hblocks⟩ := List.append_of_mem hmem
  have htiles := h.tiles
  rw [hblocks] at htiles
  have hpending := (h.orderly hsettled).pending_free hblocks hallocated
  obtain ⟨tagged, -, hrelease, htagged, htags⟩ := h.exists_run_release hsettled hblocks hallocated
  obtain ⟨after, hsettle, hsound, hafterSettled, hedits⟩ := htagged.run_settle hpending
  have hreleased : layout.release block.address =
      (Layout.settle { layout with blocks := front ++ { block with allocated := false } :: rest }
        block.address).2 := by
    rw [Layout.release, hblocks, htiles.map_markFree]
  -- the links of the freed block are the only bookkeeping that is new before it is settled
  have hfreed : ∀ address, Layout.Bookkeeping { layout with
      blocks := front ++ { block with allocated := false } :: rest } address →
        layout.Bookkeeping address ∨ block.InPayload address := by
    rintro address (⟨other, hother, hin⟩ | hepilogue)
    · rcases List.mem_append.1 hother with hfront | hrest
      · exact .inl (.inl ⟨other, by simp [hblocks, hfront], hin⟩)
      · rcases List.mem_cons.1 hrest with rfl | hrest
        · rcases hin with htags | ⟨-, hlow, hhigh⟩
          · exact .inl (.inl ⟨block, hmem, .inl htags⟩)
          · refine .inr ⟨hlow, ?_⟩
            simp only [Block.stop, overhead, wordSize] at hhigh ⊢
            omega
        · exact .inl (.inl ⟨other, by simp [hblocks, hrest], hin⟩)
    · exact .inl (.inr hepilogue)
  rw [hreleased]
  refine ⟨after, hrelease.trans (run_discard_of_ok hsettle), hsound, hafterSettled,
    (htags.mono fun address hin => .inl (.inl ⟨block, hmem, .inl hin⟩)).trans
      (hedits.mono fun address hin => ?_)⟩
  rcases hin with hbefore | hafter
  · exact (hfreed address hbefore).imp_right .inl
  · exact .inr (.inr hafter)

omit [Provider σ ε] [LawfulProvider σ] in
/-- Freeing an allocated block spares all others. -/
theorem run_release (h : heap.Sound layout) (hsettled : layout.Settled)
    (hblock : block ∈ layout.held) :
    ∃ after, (release block.address).run heap = .ok () after ∧
      after.Sound (layout.release block.address) ∧ (layout.release block.address).Settled ∧
      layout.held.Perm (block :: (layout.release block.address).held) ∧
      heap.Spares after (layout.release block.address).held := by
  obtain ⟨after, hrun, hsound, hafterSettled, hedits⟩ := h.edits_release hsettled hblock
  obtain ⟨hmem, hallocated⟩ := Layout.mem_held.1 hblock
  obtain ⟨front, rest, hblocks⟩ := List.append_of_mem hmem
  have hheld : layout.held.Perm (block :: (layout.release block.address).held) := by
    rw [Layout.release, Layout.held_settle]
    exact Layout.held_map_markFree hblocks h.tiles hallocated
  have hnodup := hheld.nodup_iff.1 h.nodup_held
  refine ⟨after, hrun, hsound, hafterSettled, hheld, hedits.spares_of_avoids ?_ ?_⟩
  · intro address hbelow
    exact not_or.2 ⟨h.not_bookkeeping_below hbelow, not_or.2 ⟨h.not_inPayload_below hmem hbelow,
      hsound.not_bookkeeping_below (hedits.start_eq ▸ hbelow)⟩⟩
  · intro kept hkept address hin
    have hkeptHeld : kept ∈ layout.held := hheld.mem_iff.2 (List.mem_cons_of_mem _ hkept)
    have hne : block ≠ kept := fun heq => (List.nodup_cons.1 hnodup).1 (heq ▸ hkept)
    exact not_or.2 ⟨h.not_bookkeeping hkeptHeld hin, not_or.2
      ⟨h.not_inPayload hmem (Layout.mem_held.1 hkeptHeld).1 hne hin,
        hsound.not_bookkeeping hkept hin⟩⟩

/-! ## Moving -/

section Payload

variable {kept : List Block} {source offset length : Nat} {bytes : List UInt8}

omit [Provider σ ε] [LawfulProvider σ] in
/-- Copying into an allocated block keeps the layout and spares the other blocks. -/
theorem run_copyBytes (h : heap.Sound layout) (hblock : block ∈ layout.held)
    (hsource : source + length ≤ heap.memory.size) (hlength : length + overhead ≤ block.size)
    (hkept : kept ⊆ layout.held) (hnot : block ∉ kept) :
    ∃ after, (copyBytes source block.address length).run heap = .ok () after ∧
      after.Sound layout ∧ heap.Spares after kept ∧
      after.memory.slice block.address length = heap.memory.slice source length := by
  have hbounds := h.bounds (Layout.mem_held.1 hblock).1
  simp only [Block.stop, overhead, wordSize] at hbounds hlength
  have htarget : block.address + length ≤ heap.memory.size := by omega
  have hedits : heap.Edits (heap.withMemory (heap.memory.copy source block.address length))
      block.InPayload := by
    refine .withMemory heap (Memory.size_copy ..) fun address hout => ?_
    refine (Memory.byte_copy _ address htarget).trans (if_neg fun hin => hout ⟨hin.1, ?_⟩)
    simp only [Block.stop, overhead, wordSize]
    omega
  exact ⟨_, Heap.run_copyBytes hsource htarget, h.congr_payload hblock hedits rfl,
    h.spares_payload hblock hedits hkept hnot, Memory.slice_copy _ htarget⟩

omit [Provider σ ε] [LawfulProvider σ] in
/-- Filling an allocated block keeps the layout and spares the other blocks, and what was filled in
is read back. -/
theorem run_fillPayload {value : UInt8} (h : heap.Sound layout) (hblock : block ∈ layout.held)
    (hlength : length ≤ block.size - overhead) (hkept : kept ⊆ layout.held) (hnot : block ∉ kept) :
    ∃ after, (fillPayload block.address length value).run heap = .ok () after ∧
      after.Sound layout ∧ heap.Spares after kept ∧
      after.readPayload block.address 0 length = .ok (List.replicate length value) := by
  have hmem := (Layout.mem_held.1 hblock).1
  have hbounds := h.bounds hmem
  have hend : block.address + length ≤ heap.memory.size := by
    simp only [Block.stop, overhead, wordSize] at hbounds hlength
    omega
  have hedits : heap.Edits (heap.withMemory (heap.memory.fill block.address length value))
      block.InPayload := by
    refine .withMemory heap (Memory.size_fill ..) fun address hout => ?_
    refine (Memory.byte_fill _ value address hend).trans (if_neg fun hin => hout ⟨hin.1, ?_⟩)
    simp only [Block.stop, overhead, wordSize] at hlength hbounds ⊢
    omega
  have hsound := h.congr_payload hblock hedits rfl
  refine ⟨_, Heap.run_fillPayload (h.payloadLength_eq hmem) hlength, hsound,
    h.spares_payload hblock hedits hkept hnot, ?_⟩
  rw [readPayload_of_payload (hsound.payload_eq hmem) (by simpa using hlength),
    Memory.take_drop_slice _ (by simpa using hlength)]
  exact congrArg Except.ok (Memory.slice_fill _ value hend)

omit [Provider σ ε] [LawfulProvider σ] in
/-- Writing into an allocated block changes bytes of its payload only. -/
theorem edits_writePayload (h : heap.Sound layout) (hblock : block ∈ layout.held)
    (hrange : offset + bytes.length ≤ block.size - overhead) :
    (writePayload block.address offset bytes).run heap =
        .ok () (heap.withMemory (heap.memory.write (block.address + offset) bytes)) ∧
      heap.Edits (heap.withMemory (heap.memory.write (block.address + offset) bytes))
        block.InPayload := by
  have hmem := (Layout.mem_held.1 hblock).1
  have hbounds := h.bounds hmem
  refine ⟨?_, .withMemory heap (Memory.size_write ..) fun address hout => ?_⟩
  · rw [writePayload, run_bind_of_ok (run_observe_of_ok (h.payloadLength_eq hmem)), if_pos hrange]
    simp only [Block.stop, overhead, wordSize] at hbounds hrange
    exact run_writeBytes (by omega)
  · refine Memory.byte_write_of_outside _ _ _ ?_
    simp only [Block.InPayload, Block.stop, overhead, wordSize] at hout hrange hbounds
    omega

omit [Provider σ ε] [LawfulProvider σ] in
/-- Writing into an allocated block keeps the layout and spares the other blocks. -/
theorem run_writePayload (h : heap.Sound layout) (hblock : block ∈ layout.held)
    (hrange : offset + bytes.length ≤ block.size - overhead) (hkept : kept ⊆ layout.held)
    (hnot : block ∉ kept) :
    ∃ after, (writePayload block.address offset bytes).run heap = .ok () after ∧
      after.Sound layout ∧ heap.Spares after kept ∧
      after.memory.slice block.address (block.size - overhead) =
        (heap.memory.slice block.address (block.size - overhead)).take offset ++ bytes ++
          (heap.memory.slice block.address (block.size - overhead)).drop
            (offset + bytes.length) := by
  have hbounds := h.bounds (Layout.mem_held.1 hblock).1
  have hpayload : block.address + (block.size - overhead) ≤ heap.memory.size := by
    simp only [Block.stop, overhead, wordSize] at hbounds ⊢
    omega
  obtain ⟨hrun, hedits⟩ := h.edits_writePayload hblock hrange
  exact ⟨_, hrun, h.congr_payload hblock hedits rfl, h.spares_payload hblock hedits hkept hnot,
    Memory.slice_write_within _ bytes hrange (by omega)⟩

end Payload

/-- A block that the layout can move is moved, with as much of its payload as both blocks can
hold. -/
theorem run_reallocate_of_ok (h : heap.Sound layout) (hsettled : layout.Settled)
    (hblock : block ∈ layout.held)
    (hreallocate : layout.reallocate heap.settings heap.toRegion.grants block.address request =
      .ok (address, next)) :
    ∃ after taken, (reallocate block.address request).run heap = .ok address after ∧
      after.Sound next ∧ next.Settled ∧ taken.address = address ∧
      request + overhead ≤ taken.size ∧ next.held.Perm (taken :: layout.held.erase block) ∧
      heap.Spares after (layout.held.erase block) ∧
      after.memory.slice address (min request (block.size - overhead)) =
        heap.memory.slice block.address (min request (block.size - overhead)) := by
  cases hallocate : layout.allocate heap.settings heap.toRegion.grants request with
  | error reason =>
      rw [Layout.reallocate, hallocate] at hreallocate
      exact nomatch hreallocate
  | ok found =>
      obtain ⟨target, placed⟩ := found
      rw [Layout.reallocate, hallocate] at hreallocate
      obtain ⟨rfl, rfl⟩ := Prod.mk.inj (Except.ok.inj hreallocate)
      obtain ⟨grown, taken, hrun, hgrown, hplaced, rfl, hfits, hheld, hspares⟩ :=
        h.run_allocate_of_ok hsettled hallocate
      have hnodup := hheld.nodup_iff.1 hgrown.nodup_held
      have hne : taken ≠ block := fun heq => (List.nodup_cons.1 hnodup).1 (heq ▸ hblock)
      have hkept : layout.held.erase block ⊆ placed.held := fun other hother =>
        hheld.mem_iff.2 (List.mem_cons_of_mem _ (List.mem_of_mem_erase hother))
      have htaken : taken ∈ placed.held := hheld.mem_iff.2 List.mem_cons_self
      have hold : block ∈ placed.held := hheld.mem_iff.2 (List.mem_cons_of_mem _ hblock)
      have hnotKept : taken ∉ layout.held.erase block := fun hmem =>
        (List.nodup_cons.1 hnodup).1 (List.mem_of_mem_erase hmem)
      have hbounds := hgrown.bounds (Layout.mem_held.1 hold).1
      have hsize := hgrown.blockSize_eq (Layout.mem_held.1 hold).1
      simp only [Block.stop, overhead, wordSize] at hbounds hfits
      let length := min request (block.size - overhead)
      have hlength : length ≤ request ∧ length + 8 ≤ block.size := by
        simp only [length, overhead, wordSize]
        omega
      obtain ⟨copied, hcopy, hcopied, hcopySpares, hslice⟩ :=
        hgrown.run_copyBytes htaken (show block.address + length ≤ grown.memory.size by omega)
          (show length + 8 ≤ taken.size by omega) hkept hnotKept
      obtain ⟨after, hrelease, hsound, hafterSettled, hreleased, hreleaseSpares⟩ :=
        hcopied.run_release hplaced hold
      -- both sides list the blocks that were allocated after the first step, in some order
      have hnext : (placed.release block.address).held.Perm (taken :: layout.held.erase block) := by
        have hsame : (block :: (placed.release block.address).held).Perm (taken :: layout.held) :=
          hreleased.symm.trans hheld
        have herased := hsame.erase block
        rwa [List.erase_cons_head, List.erase_cons_tail (by simpa using hne)] at herased
      refine ⟨after, taken, ?_, hsound, hafterSettled, rfl, hfits, hnext,
        ((hspares.mono List.erase_subset).trans hcopySpares).trans
          (hreleaseSpares.mono fun other hother => hnext.mem_iff.2 (List.mem_cons_of_mem _ hother)),
        ?_⟩
      · have hheld : (do Address.sub (← grown.blockSize block.address) overhead :
            Except Fault Nat) = .ok (block.size - overhead) := by
          rw [hsize]
          exact Address.sub_of_le (show 8 ≤ block.size by omega)
        obtain ⟨hmem, hallocated⟩ := Layout.mem_held.1 hblock
        rw [reallocate, run_bind_of_ok (run_observe_of_ok (h.isAllocated_eq hmem)),
          if_neg (not_not.2 hallocated), run_bind_of_ok hrun,
          run_bind_of_ok (run_observe_of_ok hheld), run_bind_of_ok hcopy, run_bind_of_ok hrelease]
        rfl
      · have htakenKept : taken ∈ (placed.release block.address).held :=
          hnext.mem_iff.2 List.mem_cons_self
        calc after.memory.slice taken.address length
            = copied.memory.slice taken.address length :=
              hreleaseSpares.slice_eq htakenKept (by simp only [overhead, wordSize]; omega)
          _ = grown.memory.slice block.address length := hslice
          _ = heap.memory.slice block.address length :=
              hspares.slice_eq hblock (by simp only [overhead, wordSize]; omega)

/-- When a request is refused, the block stays where it is, and no byte changes. -/
theorem run_reallocate_of_error (h : heap.Sound layout) (hblock : block ∈ layout.held)
    (hreallocate : layout.reallocate heap.settings heap.toRegion.grants block.address request =
      .error reason) :
    ∃ region, (reallocate block.address request).run heap =
        .error (.refused reason) { heap with toRegion := region } ∧
      region.memory = heap.memory := by
  obtain ⟨hmem, hallocated⟩ := Layout.mem_held.1 hblock
  cases hallocate : layout.allocate heap.settings heap.toRegion.grants request with
  | error found =>
      rw [Layout.reallocate, hallocate] at hreallocate
      obtain rfl : found = reason := Except.error.inj hreallocate
      obtain ⟨region, hrun, hmemory⟩ := h.run_allocate_of_error hallocate
      refine ⟨region, ?_, hmemory⟩
      rw [reallocate, run_bind_of_ok (run_observe_of_ok (h.isAllocated_eq hmem)),
        if_neg (not_not.2 hallocated), run_bind_of_error hrun]
  | ok found =>
      rw [Layout.reallocate, hallocate] at hreallocate
      exact nomatch hreallocate

end Heap.Sound

end BoundaryTag
