import BoundaryTag.Audit.Report
import BoundaryTag.Heap.Blocks
import BoundaryTag.Proofs.Audit.Survey
import BoundaryTag.Proofs.Heap.Placement

/-!
# Walking over a heap

On a sound heap every walk ends and sees what the layout says: the headers lead from the prologue
through all blocks (`Heap.Chained.blocks_eq`, `Heap.Chained.survey_eq`), and the links through the
listed ones (`Heap.Sound.freeBlocks_eq`, `Heap.Sound.checkList_eq`).
-/

namespace BoundaryTag

variable {σ : Type} {heap : Heap σ} {layout : Layout} {block : Block} {first : Nat}
  {rest order free : List Nat}

namespace Heap

/-! ## Walking over tiles -/

/-- Where headers tell the sizes of blocks that follow each other, they lead through all of them. -/
theorem blocksFrom_of_tiles {blocks : List Block}
    (hsize : ∀ block ∈ blocks, heap.blockSize block.address = .ok block.size)
    (hend : heap.blockSize heap.stop = .ok 0) (htiles : Tiles first blocks heap.stop) :
    heap.blocksFrom first = .ok (blocks.map (·.address)) := by
  induction blocks generalizing first with
  | nil =>
      obtain rfl := tiles_nil.1 htiles
      rw [blocksFrom, dif_pos (show heap.stop ≤ heap.memory.size from Nat.le_refl _), hend]
      rfl
  | cons block blocks ih =>
      rw [List.forall_mem_cons] at hsize
      obtain ⟨rfl, hpos, hrest⟩ := tiles_cons.1 htiles
      have hinside : block.address + block.size ≤ heap.memory.size := hrest.first_le_stop
      have hnext : heap.blocksFrom (block.address + block.size) = _ := ih hsize.2 hrest
      rw [blocksFrom, dif_pos (by omega), hsize.1, ok_bind, dif_neg (by omega), hnext]
      rfl

/-- The footers lead from the end of the heap back through these block pointers, the last of them
first. -/
def LeadsBack (heap : Heap σ) (bps : List Nat) : Prop :=
  (bps ++ [heap.stop]).IsChain fun bp next => heap.blockBefore next = .ok bp

/-- The footers lead back through blocks that follow each other when each of them leads back over
its own block. -/
theorem leadsBack_iff_of_tiles {blocks : List Block} (htiles : Tiles first blocks heap.stop) :
    heap.LeadsBack (blocks.map (·.address)) ↔
      ∀ block ∈ blocks, heap.blockBefore block.stop = .ok block.address := by
  unfold LeadsBack
  induction blocks generalizing first with
  | nil => simp
  | cons block blocks ih =>
      obtain ⟨-, -, hrest⟩ := tiles_cons.1 htiles
      have hnext : (blocks.map (·.address) ++ [heap.stop]).head? = some block.stop := by
        cases blocks with
        | nil => rw [tiles_nil.1 hrest]; rfl
        | cons next blocks => rw [← (tiles_cons.1 hrest).1]; rfl
      rw [List.map_cons, List.cons_append, List.isChain_cons, hnext, ih hrest,
        List.forall_mem_cons]
      simp only [Option.mem_some_iff, forall_eq']

namespace Chained

theorem header_stop (h : heap.Chained layout) : heap.header layout.stop = .ok .epilogue := by
  have hstart := h.start_le
  have hstop : layout.stop = heap.memory.size := h.stop_eq
  rw [header_of_le (by omega) (by omega), ← h.epilogue]
  rfl

theorem header_start (h : heap.Chained layout) :
    heap.header heap.start = .ok (.ofSize overhead true) :=
  header_of_marked h.prologue_marked (show 4 ≤ heap.start by have := h.eight_le_start; omega)
    (show heap.start ≤ heap.memory.size by have := h.start_le; omega)

theorem footer_start (h : heap.Chained layout) :
    heap.footer heap.start = .ok (.ofSize overhead true) := by
  have hlow := h.eight_le_start
  have hhigh := h.start_le
  have hlimit := h.stop_le
  simp only [Heap.stop, heapLimit] at hlimit
  exact footer_of_marked h.prologue_marked (by simp [prologue]) (by simp [prologue])
    (show 4 ≤ heap.start by omega) (by simp [prologue])
    (show heap.start + 8 ≤ heap.memory.size + 4 by omega)
    (show heap.start + 8 < addressSpace by simp only [addressSpace]; omega)

/-! ## Following the headers -/

/-- The prologue and the blocks fill the heap from its start on. -/
theorem tiles_prologue (h : heap.Chained layout) :
    Tiles heap.start (heap.prologue :: layout.blocks) heap.stop :=
  tiles_cons.2 ⟨rfl, (by decide : 0 < overhead), h.stop_eq ▸ h.tiles⟩

/-- The headers lead from the prologue through all blocks. -/
theorem blocks_eq (h : heap.Chained layout) :
    heap.blocks = .ok (heap.start :: layout.blocks.map (·.address)) := by
  have hstart : heap.blockSize heap.prologue.address = .ok heap.prologue.size := by
    show heap.blockSize heap.start = .ok overhead
    rw [blockSize_of_header h.header_start, Tag.size_ofSize (by simp) (by simp)]
  have hstop : heap.blockSize heap.stop = .ok 0 := by
    rw [← show layout.stop = heap.stop from h.stop_eq, blockSize_of_header h.header_stop,
      Tag.epilogue, Tag.size_ofSize (by simp) (by simp)]
  exact blocksFrom_of_tiles
    (List.forall_mem_cons.2 ⟨hstart, fun block hblock => h.blockSize_eq hblock⟩) hstop
    h.tiles_prologue

/-- All addresses of a heap are 64-bit numbers. -/
theorem stop_lt (h : heap.Chained layout) : heap.stop < addressSpace := by
  have hlimit := h.stop_le
  simp only [heapLimit, addressSpace] at *
  omega

/-- There is room for the header of the prologue. -/
theorem wordSize_le_start (h : heap.Chained layout) : wordSize ≤ heap.start :=
  (by decide : wordSize ≤ 8).trans h.eight_le_start

theorem tagged (h : heap.Chained layout) : ∀ block ∈ layout.blocks, heap.memory.Tagged block := by
  intro block hblock
  have hbounds := h.bounds hblock
  simp only [Block.stop] at hbounds
  exact (h.marked block hblock).tagged (by omega) (by omega)

/-- A survey sees the blocks of the layout and stops at the epilogue. -/
theorem survey_eq (h : heap.Chained layout) :
    heap.survey =
      .ok ⟨layout.blocks.map heap.memory.sighting, .zeroSize layout.stop .epilogue⟩ := by
  have hstop := h.stop_eq
  have hepilogue : heap.memory.tag (heap.stop - wordSize) = .epilogue := hstop ▸ h.epilogue
  have hsurvey := surveyFrom_of_tiles h.stop_lt (Nat.le_add_right_of_le h.wordSize_le_start)
    (hstop ▸ h.tiles) h.tagged (hepilogue ▸ Tag.size_ofSize (by simp) (by simp) true)
  rw [hepilogue, ← hstop] at hsurvey
  exact hsurvey

end Chained

/-! ## Following the links -/

/-- A check that starts at a listed block, and has not visited any block from there on, visits all
that are left and finds them linked to each other. -/
theorem checkLinks_eq {before : Option Nat} {free visited : List Nat} {budget : Nat}
    (h : heap.memory.Linked before order) (hinside : ∀ bp ∈ order, bp + 8 ≤ heap.memory.size)
    (hfree : ∀ bp ∈ order, bp ∈ free) (hnodup : order.Nodup)
    (hvisited : ∀ bp ∈ order, bp ∉ visited) (hbudget : order.length ≤ budget) :
    heap.checkLinks free budget visited before order.head? = .ok ⟨[], order⟩ := by
  induction order generalizing before visited budget with
  | nil => cases budget <;> rfl
  | cons bp order ih =>
      rw [List.forall_mem_cons] at hinside hfree hvisited
      obtain ⟨hprevious, hnext, hrest⟩ := h
      obtain ⟨hnot, hnodup⟩ := List.nodup_cons.1 hnodup
      obtain ⟨budget, rfl⟩ : ∃ rest, budget = rest + 1 := ⟨budget - 1, by simp at hbudget; omega⟩
      have hpredecessor : heap.predecessor bp = .ok before := by
        rw [predecessor_of_le hinside.1, hprevious]
      have hsuccessor : heap.successor bp = .ok order.head? := by
        rw [successor_of_le hinside.1, hnext]
      have hunvisited : ∀ next ∈ order, next ∉ bp :: visited := fun next hmem => by
        rw [List.mem_cons, not_or]
        exact ⟨fun heq => hnot (heq ▸ hmem), hvisited.2 next hmem⟩
      have hcheck := ih hrest hinside.2 hfree.2 hnodup hunvisited (by simpa using hbudget)
      rw [List.head?_cons, checkLinks, if_neg (not_not.2 hfree.1), if_neg hvisited.1, hpredecessor,
        ok_bind, hsuccessor, ok_bind, hcheck, ok_bind, if_neg (not_not.2 rfl)]
      rfl

/-- Checked against free blocks among which all of its own are, a list of linked blocks has nothing
wrong. -/
theorem checkList_of_linked (h : heap.memory.Linked none order)
    (hhead : heap.free.head = order.head?) (hinside : ∀ bp ∈ order, bp + 8 ≤ heap.memory.size)
    (hfree : ∀ bp ∈ order, bp ∈ free) (hnodup : order.Nodup) :
    heap.checkList free = .ok ⟨[], order⟩ := by
  have hlength : order.length ≤ free.length := (hnodup.subperm hfree).length_le
  rw [checkList, hhead]
  exact checkLinks_eq h hinside hfree hnodup (fun _ _ => List.not_mem_nil) (by omega)

namespace Sound

/-- The free list yields the listed blocks in their order. -/
theorem lookAtFree_eq (h : heap.Sound layout) {α : Type} {look : Nat → Except Fault α}
    {value : Nat → α} (hlook : ∀ bp ∈ layout.order, look bp = .ok (value bp)) :
    heap.lookAtFree look = .ok (layout.order.map value) := by
  have hlength := h.length_order_le
  rw [lookAtFree, h.lists.head_eq, follow_eq h.lists.linked (fun _ => h.slot_listed_le) hlook
    (by omega), ok_bind, if_pos (by simpa using hlength)]
  rfl

theorem freeBlocks_eq (h : heap.Sound layout) : heap.freeBlocks = .ok layout.order := by
  rw [freeBlocks, h.lookAtFree_eq (fun _ _ => rfl), List.map_id']

theorem exists_render (h : heap.Sound layout) : ∃ text, heap.render = .ok text := by
  have hlook : ∀ bp ∈ layout.order,
      (do return s!"FreeBlock({bp}, {← heap.blockSize bp})" : Except Fault String) =
        .ok s!"FreeBlock({bp}, {layout.sizeAt bp})" := fun bp hbp => by
    rw [h.blockSize_listed hbp]
    rfl
  exact ⟨_, by rw [render, h.lookAtFree_eq hlook]; rfl⟩

/-- Checked against the free blocks of its layout, the list has nothing wrong. -/
theorem checkList_eq (h : heap.Sound layout) :
    heap.checkList (freeAddresses layout.blocks) = .ok ⟨[], layout.order⟩ :=
  checkList_of_linked h.lists.linked h.lists.head_eq (fun _ => h.slot_listed_le) h.order_free
    h.order_nodup

/-! ## Auditing -/

/-- What an audit of a sound heap finds is told by its layout. -/
theorem examine_eq (h : heap.Sound layout) :
    heap.examine = .ok
      { entries := .note (.heading heap.start) ::
          prologueEntries heap.start (.ofSize overhead true) (.ofSize overhead true) ++
          Survey.entries
            ⟨layout.blocks.map heap.memory.sighting, .zeroSize layout.stop .epilogue⟩ heap.stop ++
          (ListCheck.allAnomalies ⟨[], layout.order⟩ (freeAddresses layout.blocks)
            layout.order.length).map .anomaly
        usage := .ofBlocks heap.stop layout.blocks } := by
  rw [examine, h.header_start, ok_bind, h.footer_start, ok_bind, h.survey_eq, ok_bind,
    Survey.freeBlocks_eq, Memory.map_block_sighting h.tagged, h.checkList_eq, ok_bind,
    Usage.ofSightings_eq, Memory.map_block_sighting h.tagged, h.lists.count_eq]
  rfl

/-- An audit of a sound heap ends with a report on its blocks. -/
theorem exists_audit (h : heap.Sound layout) (verbose : Bool) :
    ∃ report, heap.audit verbose = .ok report ∧ report.usage = .ofBlocks heap.stop layout.blocks :=
  ⟨_, by rw [audit, h.examine_eq, ok_bind]; rfl, rfl⟩

end Sound

end Heap

end BoundaryTag
