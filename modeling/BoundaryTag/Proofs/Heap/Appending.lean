import BoundaryTag.Proofs.Heap.Creation
import BoundaryTag.Proofs.Heap.Walks
import BoundaryTag.Provider.Bounded

/-!
# Asking for block after block

A heap that has been laid out can be asked for free blocks at its end without listing or merging
them, which leaves them in a row. Read `Heap.Lined` first: the headers lead through all blocks, and
the footers lead back, as long as nobody asked for an empty block. An empty block has its footer
before its header, where the footer of the last block is. `Heap.lined_of_appendEach` says that this
is all that can go wrong in any number of requests, and `Heap.Appends` what one more request does.

The induction is on `Heap.Row`, which says the same of the bytes.
-/

namespace BoundaryTag

variable {σ ε : Type} {settings : Settings} {region : Region σ} {heap : Heap σ}
  {blocks : List Block} {block : Block} {granted : List Nat} {first stop count request : Nat}

/-! ## Rounding up -/

/-- The least multiple of the alignment that is not below the request. -/
def roundedUp (request : Nat) : Nat := (request + (alignment - 1)) / alignment * alignment

theorem eq_roundedUp (h : roundUp? request alignment = some count) : count = roundedUp request := by
  unfold roundUp? at h
  split at h
  · exact (Option.some.inj h).symm
  · exact nomatch h

theorem roundUp?_of_le (h : roundedUp request ≤ heapLimit) :
    roundUp? request alignment = some (roundedUp request) := by
  simp only [roundedUp, alignment, heapLimit] at h
  exact if_pos (by simp only [alignment, addressSpace]; omega)

theorem roundedUp_mod (request : Nat) : roundedUp request % 8 = 0 := Nat.mul_mod_left ..

/-- Only nothing is rounded to nothing. -/
theorem roundedUp_pos (hpos : 0 < request) : 0 < roundedUp request := by
  simp only [roundedUp, alignment]
  omega

namespace Heap

/-! ## What is asked for and what it leads to -/

section Requests

variable [Provider σ ε]

/-- Ask for free blocks of these sizes one after the other, and go on when one of them is refused.
The result has the requests that were granted, and the heap at the end. -/
def appendEach : List Nat → Heap σ → List Nat × Heap σ
  | [], heap => ([], heap)
  | request :: requests, heap =>
      match (appendFree request).run heap with
      | .ok _ next =>
          let (granted, last) := appendEach requests next
          (request :: granted, last)
      | .error _ next => appendEach requests next

/-- How asking for a free block at the end of a heap is to end. -/
inductive Appends (heap : Heap σ) (request : Nat) : EStateM.Result Failure (Heap σ) Nat → Prop
  /-- The heap would be larger than the largest one, or the provider refuses. No byte changes. -/
  | refused {after : Heap σ} (hrefused : ¬ heap.CanGrow (roundedUp request))
      (hstart : after.start = heap.start) (hmemory : after.memory = heap.memory) :
      Appends heap request (.error (.refused .outOfMemory) after)
  /-- In all other cases there is a block. Below the old end, only the header of the epilogue
  changes, and the footer of the last block when the new one is empty. -/
  | appended {after : Heap σ} (hgranted : heap.CanGrow (roundedUp request))
      (hstart : after.start = heap.start) (hstop : after.stop = heap.stop + roundedUp request)
      (hbytes : ∀ address < heap.stop - wordSize, (request = 0 → address < heap.stop - overhead) →
        after.memory.byte address = heap.memory.byte address)
      (hempty : request = 0 → after.memory.tag (heap.stop - overhead) = ⟨0⟩) :
      Appends heap request (.ok heap.stop after)

end Requests

/-- Free blocks stand in a row behind the prologue, one for each of these requests that was not
empty. The headers lead through all blocks to the epilogue. The footers are equal to the headers and
lead back through all blocks if and only if no request was empty. -/
structure Lined (heap : Heap σ) (granted : List Nat) (blocks : List Block) : Prop where
  tiles : Tiles heap.start (heap.prologue :: blocks) heap.stop
  sizes_eq : blocks.map (fun block => (block.size, block.allocated)) =
    (granted.filter (0 < ·)).map fun request => (roundedUp request, false)
  blocks_eq : heap.blocks = .ok (heap.start :: blocks.map (·.address))
  header_eq : ∀ block ∈ heap.prologue :: blocks,
    heap.header block.address = .ok (.ofSize block.size block.allocated)
  header_stop : heap.header heap.stop = .ok .epilogue
  footers_iff : (∀ block ∈ heap.prologue :: blocks,
    heap.footer block.address = heap.header block.address) ↔ 0 ∉ granted
  leadsBack_iff : heap.LeadsBack (heap.start :: blocks.map (·.address)) ↔ 0 ∉ granted

/-- The bytes of a heap spell a row of free blocks behind the prologue, one for each of these
requests that was not empty. Only footers may be wrong, and only when a request was empty. -/
structure Row (heap : Heap σ) (granted : List Nat) (blocks : List Block) : Prop where
  eight_le_start : 8 ≤ heap.start
  stop_le : heap.stop ≤ heapLimit
  tiles : Tiles heap.start (heap.prologue :: blocks) heap.stop
  sizes_eq : blocks.map (fun block => (block.size, block.allocated)) =
    (granted.filter (0 < ·)).map fun request => (roundedUp request, false)
  header_eq : ∀ block ∈ heap.prologue :: blocks,
    heap.memory.tag (block.address - wordSize) = .ofSize block.size block.allocated
  footer_eq : ∀ block ∈ heap.prologue :: blocks,
    heap.memory.tag (block.stop - overhead) = .ofSize block.size block.allocated ∨
      heap.memory.tag (block.stop - overhead) = ⟨0⟩
  marked_iff : (∀ block ∈ heap.prologue :: blocks, heap.memory.Marked block) ↔ 0 ∉ granted
  epilogue : heap.memory.tag (heap.stop - wordSize) = .epilogue

namespace Row

/-- The blocks of a row have room for their tags, and lie between the prologue and the end. -/
theorem bounds (h : heap.Row granted blocks) (hblock : block ∈ heap.prologue :: blocks) :
    block.size % 8 = 0 ∧ 8 ≤ block.size ∧ 8 ≤ block.address ∧ block.stop ≤ heap.stop := by
  obtain ⟨hlow, hpos, hhigh⟩ := h.tiles.bounds hblock
  have hstart := h.eight_le_start
  have haligned : block.size % 8 = 0 := by
    rcases List.mem_cons.1 hblock with rfl | hmem
    · exact Nat.mod_self 8
    · have hspan : (block.size, block.allocated) ∈
          (granted.filter (0 < ·)).map fun request => (roundedUp request, false) :=
        h.sizes_eq ▸ List.mem_map.2 ⟨block, hmem, rfl⟩
      obtain ⟨request, -, heq⟩ := List.mem_map.1 hspan
      rw [← (Prod.mk.inj heq).1]
      exact roundedUp_mod request
  omega

/-- The end of a row is behind its prologue, where a 64-bit number can be. -/
theorem stop_bounds (h : heap.Row granted blocks) : 16 ≤ heap.stop ∧ heap.stop < addressSpace := by
  have hprologue := h.bounds List.mem_cons_self
  have hlimit := h.stop_le
  simp only [prologue, Block.stop, overhead, wordSize, heapLimit, addressSpace] at *
  omega

/-! ## Walking over a row -/

theorem header_read (h : heap.Row granted blocks) (hblock : block ∈ heap.prologue :: blocks) :
    heap.header block.address = .ok (.ofSize block.size block.allocated) := by
  have hbounds := h.bounds hblock
  have hstop : block.stop ≤ heap.memory.size := hbounds.2.2.2
  simp only [Block.stop] at hstop
  rw [header_of_le (by omega) (by omega), ← h.header_eq block hblock]
  rfl

theorem blockSize_read (h : heap.Row granted blocks) (hblock : block ∈ heap.prologue :: blocks) :
    heap.blockSize block.address = .ok block.size := by
  have hbounds := h.bounds hblock
  have hlimit := h.stop_le
  simp only [Block.stop, heapLimit] at hbounds hlimit
  rw [blockSize_of_header (h.header_read hblock), Tag.size_ofSize hbounds.1 (by omega)]

theorem footer_read (h : heap.Row granted blocks) (hblock : block ∈ heap.prologue :: blocks) :
    heap.footer block.address = .ok (heap.memory.tag (block.stop - overhead)) := by
  have hbounds := h.bounds hblock
  have hspace := h.stop_bounds.2
  have hsum : block.address + block.size = block.stop := rfl
  have hinside : block.stop ≤ heap.memory.size := hbounds.2.2.2
  rw [footer, footerOffset, h.blockSize_read hblock, ok_bind, Address.add_of_lt (by omega), ok_bind,
    hsum, Address.sub_of_le (by simp only [overhead, wordSize]; omega), ok_bind]
  exact tagAt_of_le (by simp only [overhead, wordSize]; omega)

theorem header_stop (h : heap.Row granted blocks) : heap.header heap.stop = .ok .epilogue := by
  have hbounds := h.stop_bounds
  rw [header_of_le (by omega) (show heap.stop ≤ heap.memory.size from Nat.le_refl _), ← h.epilogue]
  rfl

/-- The headers lead through all blocks of a row. -/
theorem blocks_eq (h : heap.Row granted blocks) :
    heap.blocks = .ok (heap.start :: blocks.map (·.address)) := by
  have hstop : heap.blockSize heap.stop = .ok 0 := by
    rw [blockSize_of_header h.header_stop, Tag.epilogue, Tag.size_ofSize (by simp) (by simp)]
  exact blocksFrom_of_tiles (fun block hblock => h.blockSize_read hblock) hstop h.tiles

/-- The footers of a row are equal to the headers as long as no request was empty. -/
theorem footers_iff (h : heap.Row granted blocks) :
    (∀ block ∈ heap.prologue :: blocks, heap.footer block.address = heap.header block.address) ↔
      0 ∉ granted := by
  rw [← h.marked_iff]
  refine forall₂_congr fun block hblock => ?_
  rw [h.footer_read hblock, h.header_read hblock]
  exact ⟨fun heq => ⟨h.header_eq block hblock, Except.ok.inj heq⟩,
    fun hmarked => congrArg _ hmarked.footer⟩

/-- A footer of a row leads back to its own block if and only if it has not been overwritten. -/
theorem blockBefore_iff (h : heap.Row granted blocks) (hblock : block ∈ heap.prologue :: blocks) :
    heap.blockBefore block.stop = .ok block.address ↔ heap.memory.Marked block := by
  have hbounds := h.bounds hblock
  have hlimit := h.stop_le
  have hinside : block.stop ≤ heap.memory.size := hbounds.2.2.2
  have hsum : block.stop = block.address + block.size := rfl
  simp only [heapLimit] at hlimit
  constructor
  · intro hback
    refine ⟨h.header_eq block hblock, (h.footer_eq block hblock).resolve_right fun hzero => ?_⟩
    -- an overwritten footer leads from the end of the block to this end again
    have hread : heap.tagAt (block.stop - overhead) = .ok ⟨0⟩ := by
      rw [← hzero]
      exact tagAt_of_le (by simp only [overhead, wordSize]; omega)
    rw [blockBefore, Address.sub_of_le (by simp only [overhead, wordSize]; omega), ok_bind, hread,
      ok_bind] at hback
    have hsame : block.stop = block.address := Except.ok.inj hback
    omega
  · intro hmarked
    exact blockBefore_of_marked hmarked hbounds.1 (by omega) (by omega) (by omega)

/-- The footers lead back through a row as long as no request was empty. -/
theorem leadsBack_iff (h : heap.Row granted blocks) :
    heap.LeadsBack (heap.start :: blocks.map (·.address)) ↔ 0 ∉ granted := by
  rw [← h.marked_iff]
  exact (leadsBack_iff_of_tiles h.tiles).trans
    (forall₂_congr fun block hblock => h.blockBefore_iff hblock)

theorem lined (h : heap.Row granted blocks) : heap.Lined granted blocks where
  tiles := h.tiles
  sizes_eq := h.sizes_eq
  blocks_eq := h.blocks_eq
  header_eq _ hblock := h.header_read hblock
  header_stop := h.header_stop
  footers_iff := h.footers_iff
  leadsBack_iff := h.leadsBack_iff

end Row

/-! ## One more block -/

section Extending

variable (happended : heap.memory.Appended region.memory count) (hlow : 8 ≤ heap.stop)

include happended

theorem stop_extended : (heap.extended region count).stop = heap.stop + count :=
  (Memory.size_close ..).trans happended.size_eq

include hlow

theorem epilogue_extended :
    (heap.extended region count).memory.tag (heap.stop + count - wordSize) = .epilogue := by
  let new : Block := ⟨heap.stop, count, false⟩
  exact Memory.tag_close (show 4 ≤ new.stop by simp only [new, Block.stop]; omega)
    (Nat.le_of_eq happended.size_eq.symm)

/-- A new block that is not empty has its tags. -/
theorem marked_extended (hsize : 8 ≤ count) :
    (heap.extended region count).memory.Marked ⟨heap.stop, count, false⟩ :=
  Memory.marked_close (show 4 ≤ heap.stop by omega) hsize (Nat.le_of_eq happended.size_eq.symm)

/-- An empty block clears the footer before it. -/
theorem tag_extended_of_empty (hempty : count = 0) :
    (heap.extended region count).memory.tag (heap.stop - overhead) = ⟨0⟩ := by
  subst hempty
  have hsize : region.memory.size = heap.stop := happended.size_eq
  show (region.memory.close ⟨heap.stop, 0, false⟩).tag _ = _
  simp only [wordSize, overhead, Memory.tag, Memory.close, Memory.mark, Block.stop, Nat.add_zero]
  rw [Memory.word_setWord_of_disjoint _ _ (by omega),
    Memory.word_setWord_same _ _ (by simp only [Memory.size_setWord]; omega)]
  rfl

/-- A new block changes the bytes of its tags and of the epilogue behind it only. -/
theorem byte_extended (haligned : count % 8 = 0) {address : Nat}
    (hbelow : address < heap.stop - wordSize)
    (hempty : count = 0 → address < heap.stop - overhead) :
    (heap.extended region count).memory.byte address = heap.memory.byte address := by
  rw [← happended.byte_eq address (show address < heap.stop by omega)]
  show (region.memory.close ⟨heap.stop, count, false⟩).byte address = _
  simp only [wordSize, overhead] at hbelow hempty
  simp only [wordSize, overhead, Memory.close, Memory.mark, Block.stop]
  rw [Memory.byte_setWord_of_outside _ _ (by omega), Memory.byte_setWord_of_outside _ _ (by omega),
    Memory.byte_setWord_of_outside _ _ (by omega)]

theorem tag_extended (haligned : count % 8 = 0) {offset : Nat}
    (hbelow : offset + 4 ≤ heap.stop - wordSize)
    (hempty : count = 0 → offset + 4 ≤ heap.stop - overhead) :
    (heap.extended region count).memory.tag offset = heap.memory.tag offset := by
  refine Memory.tag_congr fun address _ hlt => ?_
  exact byte_extended happended hlow haligned (hlt.trans_le hbelow) fun hzero =>
    hlt.trans_le (hempty hzero)

end Extending

namespace Row

/-- A heap that has been laid out is a row without blocks. -/
theorem of_laidOut (h : heap.LaidOut settings region) (hlimit : heap.stop ≤ heapLimit) :
    heap.Row [] [] := by
  have hpadding := paddingAfter_aligned region.memory.size
  have hprologue : heap.prologue = nextPrologue region.memory := by
    rw [prologue, h.start_eq]
    rfl
  have hstop : heap.prologue.stop = heap.stop := by
    rw [hprologue, Heap.stop, h.size_eq]
  have hmarked : heap.memory.Marked heap.prologue := hprologue ▸ h.marked
  constructor
  case eight_le_start =>
    rw [h.start_eq]
    simp only [nextPrologue, wordSize]
    omega
  case stop_le => exact hlimit
  case tiles => exact tiles_cons.2 ⟨rfl, (by decide : 0 < overhead), tiles_nil.2 hstop⟩
  case sizes_eq => rfl
  case header_eq => simpa using hmarked.header
  case footer_eq => simpa using Or.inl hmarked.footer
  case marked_iff => simpa using hmarked
  case epilogue => rw [← hstop, hprologue]; exact h.epilogue

/-- A row depends on the bytes only. -/
theorem congr_region (h : heap.Row granted blocks) (hmemory : region.memory = heap.memory) :
    Row { heap with toRegion := region } granted blocks := by
  obtain ⟨provider, memory⟩ := region
  obtain rfl : memory = heap.memory := hmemory
  exact { h with }

variable (h : heap.Row granted blocks)

include h

/-- A block of a row keeps its header when the heap is extended. -/
theorem header_extended (hcount : count % 8 = 0)
    (happended : heap.memory.Appended region.memory count)
    (hblock : block ∈ heap.prologue :: blocks) :
    (heap.extended region count).memory.tag (block.address - wordSize) =
      .ofSize block.size block.allocated := by
  have hbounds := h.bounds hblock
  have hlow := h.stop_bounds.1
  simp only [Block.stop] at hbounds
  rw [← h.header_eq block hblock]
  refine tag_extended happended (by omega) hcount ?_ fun _ => ?_
  · simp only [wordSize]
    omega
  · simp only [wordSize, overhead]
    omega

/-- A block of a row keeps its footer when the heap is extended, unless it is the last one and the
new block is empty. -/
theorem footer_extended (hcount : count % 8 = 0)
    (happended : heap.memory.Appended region.memory count)
    (hblock : block ∈ heap.prologue :: blocks) (hkept : count = 0 → block.stop ≠ heap.stop) :
    (heap.extended region count).memory.tag (block.stop - overhead) =
      heap.memory.tag (block.stop - overhead) := by
  have hbounds := h.bounds hblock
  have hlow := h.stop_bounds.1
  refine tag_extended happended (by omega) hcount ?_ fun hempty => ?_
  · simp only [wordSize, overhead]
    omega
  · -- the footer that an empty block clears is a whole block away
    obtain ⟨next, hnext, haddress⟩ :=
      (h.tiles.stop_eq_or_exists hblock).resolve_left (hkept hempty)
    have hnextBounds := h.bounds hnext
    simp only [Block.stop] at hnextBounds haddress
    simp only [Block.stop, wordSize, overhead]
    omega

/-- When the heap is extended by a block that is not empty, the tags of the old blocks stay, also
those that were overwritten before. -/
theorem marked_extended_iff (hcount : count % 8 = 0)
    (happended : heap.memory.Appended region.memory count) (hpos : 0 < count) :
    (∀ block ∈ heap.prologue :: blocks, (heap.extended region count).memory.Marked block) ↔
      0 ∉ granted := by
  rw [← h.marked_iff]
  refine forall₂_congr fun block hblock => ?_
  have hheader := h.header_extended hcount happended hblock
  have hfooter := h.footer_extended hcount happended hblock fun hzero => absurd hzero hpos.ne'
  constructor
  · intro hmarked
    exact ⟨h.header_eq block hblock, hfooter.symm.trans hmarked.footer⟩
  · intro hmarked
    exact ⟨hheader, hfooter.trans hmarked.footer⟩

/-- An empty block joins the row without a trace but for the footer of the last block. -/
theorem extend_empty (happended : heap.memory.Appended region.memory 0) :
    (heap.extended region 0).Row (granted ++ [0]) blocks := by
  have hlow := h.stop_bounds.1
  have hstop : (heap.extended region 0).stop = heap.stop := stop_extended happended
  obtain ⟨last, hlast, hlastStop⟩ := h.tiles.exists_last
  constructor
  case eight_le_start => exact h.eight_le_start
  case stop_le => exact hstop ▸ h.stop_le
  case tiles => exact hstop ▸ h.tiles
  case sizes_eq => simpa using h.sizes_eq
  case header_eq => exact fun block hblock => h.header_extended rfl happended hblock
  case footer_eq =>
    intro block hblock
    by_cases hend : block.stop = heap.stop
    · rw [hend]
      exact .inr (tag_extended_of_empty happended (by omega) rfl)
    · rw [h.footer_extended rfl happended hblock fun _ => hend]
      exact h.footer_eq block hblock
  case marked_iff =>
    -- the last block has lost its footer, whatever was asked for before
    refine iff_of_false (fun hmarked => ?_) (by simp)
    have hcleared := (hmarked last hlast).footer
    have hbounds := h.bounds hlast
    have hlimit := h.stop_le
    simp only [Block.stop, heapLimit] at hbounds hlimit
    rw [hlastStop, tag_extended_of_empty happended (by omega) rfl] at hcleared
    have hsize := Tag.size_ofSize hbounds.1 (by omega) last.allocated
    rw [← hcleared] at hsize
    have hzero : (⟨0⟩ : Tag).size = 0 := rfl
    omega
  case epilogue => exact hstop ▸ epilogue_extended happended (by omega)

/-- A block that is not empty joins the row at its end. -/
theorem extend_block (hpos : 0 < request) (hroom : heap.stop + roundedUp request ≤ heapLimit)
    (happended : heap.memory.Appended region.memory (roundedUp request)) :
    (heap.extended region (roundedUp request)).Row (granted ++ [request])
      (blocks ++ [⟨heap.stop, roundedUp request, false⟩]) := by
  have hcount := roundedUp_mod request
  have hcountPos := roundedUp_pos hpos
  have hlow := h.stop_bounds.1
  have hstop := stop_extended happended
  have hnew : (heap.extended region (roundedUp request)).memory.Marked _ :=
    marked_extended happended (by omega) (by omega)
  constructor
  case eight_le_start => exact h.eight_le_start
  case stop_le => exact hstop ▸ hroom
  case tiles =>
    rw [← List.cons_append]
    exact tiles_append_cons.2 ⟨h.tiles, hcountPos, tiles_nil.2 hstop.symm⟩
  case sizes_eq => simp [h.sizes_eq, List.filter_append, hpos]
  case header_eq =>
    rw [← List.cons_append, List.forall_mem_append, List.forall_mem_singleton]
    exact ⟨fun block hblock => h.header_extended hcount happended hblock, hnew.header⟩
  case footer_eq =>
    rw [← List.cons_append, List.forall_mem_append, List.forall_mem_singleton]
    refine ⟨fun block hblock => ?_, .inl hnew.footer⟩
    rw [h.footer_extended hcount happended hblock (by omega)]
    exact h.footer_eq block hblock
  case marked_iff =>
    rw [← List.cons_append, List.forall_mem_append, List.forall_mem_singleton]
    show (∀ block ∈ heap.prologue :: blocks, _) ∧ _ ↔ _
    rw [h.marked_extended_iff hcount happended hcountPos]
    simp [hnew, hpos.ne]
  case epilogue => exact hstop ▸ epilogue_extended happended (by omega)

end Row

/-! ## Many blocks -/

section Requests

variable [Provider σ ε] [LawfulProvider σ]

/-- A request is granted and extends the heap, or is refused and keeps the bytes. -/
theorem appendFree_cases (hlow : 8 ≤ heap.stop) (hlimit : heap.stop ≤ heapLimit) (request : Nat) :
    (∃ region, heap.CanGrow (roundedUp request) ∧
      heap.memory.Appended region.memory (roundedUp request) ∧
      (appendFree request).run heap =
        .ok heap.stop (heap.extended region (roundedUp request))) ∨
    ∃ region, ¬ heap.CanGrow (roundedUp request) ∧ region.memory = heap.memory ∧
      (appendFree request).run heap =
        .error (.refused .outOfMemory) { heap with toRegion := region } := by
  by_cases hgranted : heap.CanGrow (roundedUp request)
  · obtain ⟨region, happended, hrun⟩ := run_appendFree_of_grants
      (roundUp?_of_le ((Nat.le_add_left ..).trans hgranted.1)) hlow hgranted
    exact .inl ⟨region, hgranted, happended, hrun⟩
  · obtain ⟨region, hrun, hmemory⟩ := run_appendFree_refused hlimit fun count hcount =>
      eq_roundedUp hcount ▸ hgranted
    exact .inr ⟨region, hgranted, hmemory, hrun⟩

namespace Row

/-- Asking for one more block of a row ends as it is to. -/
theorem appends (h : heap.Row granted blocks) (request : Nat) :
    heap.Appends request ((appendFree request).run heap) := by
  have hlow := h.stop_bounds.1
  rcases appendFree_cases (by omega) h.stop_le request with
    ⟨region, hgranted, happended, hrun⟩ | ⟨region, hrefused, hmemory, hrun⟩
  · rw [hrun]
    refine .appended hgranted rfl (stop_extended happended) (fun address hbelow hempty => ?_)
      fun hempty => ?_
    · refine byte_extended happended (by omega) (roundedUp_mod request) hbelow fun hzero => ?_
      exact hempty (Nat.eq_zero_of_not_pos fun hpos => (roundedUp_pos hpos).ne' hzero)
    · subst hempty
      exact tag_extended_of_empty happended (by omega) rfl
  · rw [hrun]
    exact .refused hrefused rfl hmemory

/-- Asking for any number of blocks makes a longer row. -/
theorem exists_appendEach (h : heap.Row granted blocks) (requests : List Nat) :
    ∃ more, (appendEach requests heap).2.Row (granted ++ (appendEach requests heap).1)
      (blocks ++ more) := by
  induction requests generalizing heap granted blocks with
  | nil => exact ⟨[], by simpa [appendEach] using h⟩
  | cons request requests ih =>
      have hlow := h.stop_bounds.1
      rcases appendFree_cases (by omega) h.stop_le request with
        ⟨region, hgranted, happended, hrun⟩ | ⟨region, hrefused, hmemory, hrun⟩
      · obtain ⟨new, hnext⟩ : ∃ new, (heap.extended region (roundedUp request)).Row
            (granted ++ [request]) (blocks ++ new) := by
          rcases Nat.eq_zero_or_pos request with rfl | hpos
          · exact ⟨[], (List.append_nil blocks).symm ▸ h.extend_empty happended⟩
          · exact ⟨_, h.extend_block hpos hgranted.1 happended⟩
        obtain ⟨more, hlast⟩ := ih hnext
        rw [appendEach, hrun]
        exact ⟨new ++ more, by simpa using hlast⟩
      · rw [appendEach, hrun]
        exact ih (h.congr_region hmemory)

end Row

/-- Whatever free blocks a new heap is asked for, those that are granted stand in a row behind the
prologue, and whatever it is asked for next is appended or refused. -/
theorem lined_of_appendEach (hformat : format.run (raw settings region) = .ok () heap)
    (hlimit : heap.stop ≤ heapLimit) (requests : List Nat) :
    (∃ blocks, (appendEach requests heap).2.Lined (appendEach requests heap).1 blocks) ∧
      ∀ request, (appendEach requests heap).2.Appends request
        ((appendFree request).run (appendEach requests heap).2) := by
  have hrow := Row.of_laidOut (laidOut_of_format hformat) hlimit
  obtain ⟨blocks, hlast⟩ := hrow.exists_appendEach requests
  rw [List.nil_append, List.nil_append] at hlast
  exact ⟨⟨blocks, hlast.lined⟩, hlast.appends⟩

end Requests

/-- Two blocks behind three bytes that were handed out before, with a refusal between them: the
footers lead back. With an empty request between them, they do not. -/
theorem lined_of_small_requests : ∃ heap : Heap Bounded,
    format.run (raw .standard ((Bounded.region 200).append 3)) = .ok () heap ∧ heap.stop = 16 ∧
      (∃ blocks, (appendEach [100, 500, 3] heap).2.Lined [100, 3] blocks ∧
        (appendEach [100, 500, 3] heap).2.LeadsBack (heap.start :: blocks.map (·.address))) ∧
      ∃ blocks, (appendEach [100, 0, 3] heap).2.Lined [100, 0, 3] blocks ∧
        ¬ (appendEach [100, 0, 3] heap).2.LeadsBack (heap.start :: blocks.map (·.address)) := by
  have hseen : (match format.run (raw .standard ((Bounded.region 200).append 3)) with
    | .ok () heap => some (heap.stop, (appendEach [100, 500, 3] heap).1,
        (appendEach [100, 500, 3] heap).2.start, (appendEach [100, 0, 3] heap).1,
        (appendEach [100, 0, 3] heap).2.start, heap.start)
    | .error .. => none) = some (16, [100, 3], 8, [100, 0, 3], 8, 8) := by
    decide +kernel
  cases hformat : format.run (raw .standard ((Bounded.region 200).append 3)) with
  | error failure stopped =>
      rw [hformat] at hseen
      exact nomatch hseen
  | ok _ heap =>
      rw [hformat] at hseen
      simp only [Option.some.injEq, Prod.mk.injEq] at hseen
      obtain ⟨hstop, hrefused, hfirst, hempty, hsecond, hstart⟩ := hseen
      have hlimit : heap.stop ≤ heapLimit := by simp [hstop]
      obtain ⟨⟨blocks, hlined⟩, -⟩ := lined_of_appendEach hformat hlimit [100, 500, 3]
      obtain ⟨⟨others, hbroken⟩, -⟩ := lined_of_appendEach hformat hlimit [100, 0, 3]
      rw [hrefused] at hlined
      rw [hempty] at hbroken
      have hback := hlined.leadsBack_iff.2 (by decide)
      have hlost := mt hbroken.leadsBack_iff.1 (by decide)
      rw [hfirst, ← hstart] at hback
      rw [hsecond, ← hstart] at hlost
      exact ⟨heap, rfl, hstop, ⟨blocks, hlined, hback⟩, others, hbroken, hlost⟩

/-- In a new heap, an empty request clears the footer of the prologue. The end of the heap then
leads back to itself. -/
theorem exists_cleared_footer : ∃ heap next : Heap Bounded,
    format.run (raw .standard (Bounded.region 64)) = .ok () heap ∧
      (appendFree 0).run heap = .ok 16 next ∧
      next.header 8 = .ok (.ofSize overhead true) ∧ next.footer 8 = .ok ⟨0⟩ ∧
      next.blockBefore 16 = .ok 16 := by
  have hseen : (match format.run (raw .standard (Bounded.region 64)) with
    | .ok () heap => match (appendFree 0).run heap with
      | .ok 16 next => some ((next.header 8).toOption, (next.footer 8).toOption,
          (next.blockBefore 16).toOption)
      | _ => none
    | .error .. => none) = some (some (.ofSize overhead true), some ⟨0⟩, some 16) := by
    decide +kernel
  split at hseen
  · next heap hformat =>
    split at hseen
    · next next happend =>
      simp only [Option.some.injEq, Prod.mk.injEq] at hseen
      obtain ⟨hheader, hfooter, hback⟩ := hseen
      exact ⟨heap, next, hformat, happend, eq_ok_of_toOption hheader, eq_ok_of_toOption hfooter,
        eq_ok_of_toOption hback⟩
    · exact nomatch hseen
  · exact nomatch hseen

end Heap

end BoundaryTag
