import BoundaryTag.Client.Session
import BoundaryTag.Proofs.Client.Steps
import BoundaryTag.Proofs.Heap.PlainWords
import BoundaryTag.Proofs.Layout.Runs
import BoundaryTag.Provider.Bounded

/-!
# Stale addresses

A client may still have the address of a block that it has freed. `Heap.Rejects` says that the heap
stops at once when such an address is freed or moved, and `Client.rejects_of_released` that it does
so until memory is handed out again. By then the address may lie in the middle of a larger free
block, where nothing but an old word tells that it was freed: `Heap.Stale` says that this word is
plain, and `Client.Tracks.stale_step` that every call which hands out no memory keeps it so.
-/

namespace BoundaryTag

open HeapM

variable {σ ε : Type} {settings : Settings} {region : Region σ} {client last next : Client σ}
  {layout : Layout} {heap after : Heap σ} {block : Block} {address : Nat} {call : Call}
  {answer : Answer} {turns : List Turn}

/-! ## Rejected addresses -/

namespace Heap

/-- The action stops with this message, and the heap is as it was. -/
def StopsWith (heap : Heap σ) {α : Type} (action : HeapM σ α) (message : String) : Prop :=
  ∃ cause : Fault, action.run heap = .error (.fault cause) heap ∧ cause.message? = some message

/-- The heap neither frees nor moves what is at this address, and says that it is free already. -/
structure Rejects [Provider σ ε] (heap : Heap σ) (address : Nat) : Prop where
  release : heap.StopsWith (release address) s!"double free of {address}"
  reallocate : ∀ request : Nat,
    heap.StopsWith (reallocate address request) s!"reallocate of free block {address}"

/-- The address lies in a free block, and the word below it is plain. -/
structure Stale (heap : Heap σ) (layout : Layout) (address : Nat) : Prop where
  covered : ∃ block ∈ layout.blocks, block.allocated = false ∧ block.Covers address
  plain : heap.PlainOn (· = address - wordSize)

namespace Stale

/-- The provider does not matter. -/
theorem congr_region (h : heap.Stale layout address) {other : Region σ}
    (hmemory : other.memory = heap.memory) :
    Stale { heap with toRegion := other } layout address := by
  obtain ⟨provider, memory⟩ := other
  obtain rfl : memory = heap.memory := hmemory
  exact ⟨h.covered, h.plain.head, h.plain.aligned, h.plain.plain⟩

/-- At a stale address, the heap finds a header without the flag. -/
theorem rejects [Provider σ ε] (h : heap.Stale layout address) (hsound : heap.Sound layout) :
    heap.Rejects address := by
  obtain ⟨block, hblock, -, hlow, hhigh⟩ := h.covered
  have hbounds := hsound.bounds hblock
  have hinside : heap.start < address ∧ address < heap.stop := by
    simp only [Heap.stop]
    omega
  have hheader : heap.header address = .ok ⟨heap.memory.word (address - wordSize)⟩ :=
    header_of_le (by omega) (by omega)
  have hflag : heap.isAllocated address = .ok false := by
    rw [isAllocated_of_header hheader]
    exact congrArg _ (h.plain.plain _ rfl).allocated_eq
  constructor
  case release =>
    refine ⟨.doubleFree address, ?_, rfl⟩
    rw [Heap.release, run_bind_of_ok (run_get heap), if_neg (not_not.2 hinside),
      run_bind_of_ok (run_observe_of_ok hflag), if_pos (by simp)]
    rfl
  case reallocate =>
    intro request
    refine ⟨.reallocateFree address, ?_, rfl⟩
    rw [Heap.reallocate, run_bind_of_ok (run_observe_of_ok hflag), if_pos (by simp)]
    rfl

/-- Writing into an allocated block changes no byte of a free one, nor of its header. -/
theorem congr_payload (h : heap.Stale layout address) (hsound : heap.Sound layout)
    (hblock : block ∈ layout.held) (hedits : heap.Edits after block.InPayload)
    (hfree : after.free = heap.free) : after.Stale layout address := by
  obtain ⟨other, hother, hflag, hlow, hhigh⟩ := h.covered
  obtain ⟨hmem, hallocated⟩ := Layout.mem_held.1 hblock
  have hne : block ≠ other := by
    rintro rfl
    rw [hallocated] at hflag
    contradiction
  have hdisjoint := hsound.tiles.disjoint hmem hother hne
  have hbounds := hsound.bounds hother
  refine ⟨h.covered, hfree ▸ h.plain.head, h.plain.aligned, ?_⟩
  rintro _ rfl
  have hword : after.memory.word (address - wordSize) = heap.memory.word (address - wordSize) := by
    refine Memory.word_congr fun inside hle hlt => hedits.byte_eq inside fun hin => ?_
    simp only [Block.InPayload, Block.stop, overhead, wordSize] at *
    omega
  show (after.memory.word (address - wordSize)).toNat % 4 = 0
  rw [hword]
  exact h.plain.plain _ rfl

end Stale

end Heap

/-! ## Free bytes -/

/-- An address that lies in a free block, or in the one that is freed, lies in a free block
afterwards. -/
theorem Layout.exists_covers_release {first stop freed : Nat}
    (htiles : Tiles first layout.blocks stop) (hblock : block ∈ layout.blocks)
    (hfree : block.allocated = false ∨ block.address = freed) (hcovers : block.Covers address) :
    ∃ merged ∈ (layout.release freed).blocks, merged.allocated = false ∧
      merged.Covers address := by
  have hmark : Block.markFree freed = Block.markFreeIn [freed] := by
    funext other
    simp only [Block.markFree, Block.markFreeIn, List.mem_singleton]
  have hmarked : { block with allocated := false } ∈ layout.blocks.map (Block.markFree freed) := by
    refine List.mem_map.2 ⟨block, hblock, ?_⟩
    unfold Block.markFree
    split
    next => rfl
    next hne =>
      obtain ⟨bp, size, allocated⟩ := block
      obtain rfl : allocated = false := hfree.resolve_right hne
      rfl
  have hmarkedTiles := htiles.map_markFreeIn [freed]
  rw [← hmark] at hmarkedTiles
  obtain ⟨merged, hmerged, hmergedFree, hlow, hhigh⟩ := hmarkedTiles.exists_mergeFree hmarked rfl
  exact ⟨merged, hmerged, hmergedFree, hlow.trans hcovers.1, hcovers.2.trans_le hhigh⟩

namespace Client

variable [Provider σ ε]

namespace Tracks

/-- Once a block has been freed, its address is stale. -/
theorem stale_of_release (h : client.Tracks settings region layout) (hlive : address ∈ client.live)
    (hperform : client.perform (.release address) = .ok (answer, next)) :
    next.heap.Stale (layout.release address) address := by
  obtain ⟨block, hblock, rfl⟩ := h.exists_held hlive
  obtain ⟨hmem, -⟩ := Layout.mem_held.1 hblock
  obtain ⟨after, hrun, -⟩ := h.sound.run_release h.settled hblock
  rw [heap_of_ok hperform (run_bind_of_ok hrun)]
  have hplain := h.sound.plainOn_of_run_release h.settled hblock h.sound.plainOn_links hrun
  refine ⟨Layout.exists_covers_release h.sound.tiles hmem (.inr rfl) ?_,
    hplain.mono fun _ => .inr⟩
  have hpos := h.sound.tiles.size_pos block hmem
  exact ⟨le_refl _, Nat.lt_add_of_pos_right hpos⟩

variable [LawfulProvider σ]

/-- A call that hands out no memory leaves a stale address stale. -/
theorem stale_step (h : client.Tracks settings region layout)
    (hstale : client.heap.Stale layout address) (hlegal : call.Legal client)
    (hperform : client.perform call = .ok (answer, next))
    (hnone : ∀ target, answer ≠ .block target) :
    next.heap.Stale (layout.perform settings client.heap.toRegion.grants call).2 address := by
  obtain ⟨hanswer, -⟩ := h.perform_eq hlegal hperform
  obtain rfl := h.settings_eq
  cases call with
  | allocate request =>
      rw [Layout.perform] at hanswer ⊢
      cases hallocate : layout.allocate client.heap.settings client.heap.toRegion.grants
          request with
      | ok found =>
          rw [hallocate] at hanswer
          exact absurd hanswer (hnone _)
      | error reason =>
          obtain ⟨other, hrun, hmemory⟩ := h.sound.run_allocate_of_error hallocate
          rw [heap_of_refused hperform (run_bind_of_error hrun)]
          exact hstale.congr_region hmemory
  | reallocate old request =>
      obtain ⟨block, hblock, rfl⟩ := h.exists_held hlegal
      rw [Layout.perform] at hanswer ⊢
      cases hreallocate : layout.reallocate client.heap.settings client.heap.toRegion.grants
          block.address request with
      | ok found =>
          rw [hreallocate] at hanswer
          exact absurd hanswer (hnone _)
      | error reason =>
          obtain ⟨other, hrun, hmemory⟩ := h.sound.run_reallocate_of_error hblock hreallocate
          rw [heap_of_refused hperform (run_bind_of_error hrun)]
          exact hstale.congr_region hmemory
  | release other =>
      obtain ⟨block, hblock, rfl⟩ := h.exists_held hlegal
      obtain ⟨after, hrun, -⟩ := h.sound.run_release h.settled hblock
      rw [heap_of_ok hperform (run_bind_of_ok hrun)]
      obtain ⟨free, hfree, hflag, hcovers⟩ := hstale.covered
      have hplain := h.sound.plainOn_of_run_release h.settled hblock hstale.plain hrun
      exact ⟨Layout.exists_covers_release h.sound.tiles hfree (.inl hflag) hcovers,
        hplain.mono fun _ => .inl⟩
  | write target offset bytes =>
      obtain ⟨block, hblock, rfl, hrange⟩ := h.exists_written hlegal
      obtain ⟨hrun, hedits⟩ := h.sound.edits_writePayload hblock hrange
      rw [heap_of_ok hperform (run_bind_of_ok hrun)]
      exact hstale.congr_payload h.sound hblock hedits rfl

/-- After a run that hands out no memory, the heap still rejects a stale address. -/
theorem rejects_of_run (h : client.Tracks settings region layout)
    (hstale : client.heap.Stale layout address) (hrun : Run client turns last)
    (hnone : ∀ turn ∈ turns, ∀ target, turn.answer ≠ .block target) :
    last.heap.Rejects address := by
  induction hrun generalizing layout with
  | done client => exact hstale.rejects h.sound
  | called hlegal hperform _ ih =>
      rw [List.forall_mem_cons] at hnone
      exact ih (h.perform_eq hlegal hperform).2
        (h.stale_step hstale hlegal hperform hnone.1) hnone.2
  | retuned provider _ ih => exact ih (h.retune provider) (hstale.congr_region rfl) hnone

end Tracks

variable [LawfulProvider σ]

/-- Once a block has been freed, the heap refuses to free or to move it again, whatever is freed and
written after that and whichever requests are refused, as long as none is granted. -/
theorem rejects_of_released (hreach : Reachable settings region client)
    (hlive : address ∈ client.live) :
    ∃ freed, client.perform (.release address) = .ok (.done, freed) ∧
      ∀ turns last, Run freed turns last →
        (∀ turn ∈ turns, ∀ target, turn.answer ≠ .block target) →
          last.heap.Rejects address := by
  obtain ⟨layout, htracks⟩ := hreach.exists_tracks
  obtain ⟨freed, hperform, hfreed⟩ := htracks.perform_release hlive
  refine ⟨freed, hperform, ?_⟩
  intro turns last hrun hnone
  exact hfreed.rejects_of_run (htracks.stale_of_release hlive hperform) hrun hnone

/-- After a block is freed, both of its neighbours are freed, too, and in between one of them is
written and two requests are refused. In the end, its address lies in the middle of the only free
block. -/
theorem rejects_of_merged_session : ∃ (client freed last : Client Bounded) (turns : List Turn),
    Reachable ⟨64, 32⟩ (Bounded.region 300) client ∧ 48 ∈ client.live ∧
      client.perform (.release 48) = .ok (.done, freed) ∧ Run freed turns last ∧
      (∀ turn ∈ turns, ∀ target, turn.answer ≠ .block target) ∧
      last.heap.freeBlocks.toOption = some [16] ∧ last.heap.Rejects 48 := by
  let later : List Call := [.release 16, .write 80 2 [255, 255], .allocate 1000,
    .reallocate 80 1000, .release 80]
  have hseen : (session ⟨64, 32⟩ (Bounded.region 300)
      [.allocate 24, .allocate 24, .allocate 24]).map (fun (_, _, client) => (client.live,
        (client.perform (.release 48)).toOption.bind fun (_, freed) =>
          (freed.play later).map fun (turns, last) =>
            (turns.map (·.answer), last.heap.freeBlocks.toOption))) =
      some ([80, 48, 16], some ([.done, .done, .refused .outOfMemory, .refused .outOfMemory, .done],
        some [16])) := by
    decide +kernel
  obtain ⟨heap, before, client, hcreate, hrun, hview⟩ := exists_of_session hseen
  obtain ⟨hlive, hlater⟩ := Prod.mk.inj hview
  have hreach : Reachable ⟨64, 32⟩ (Bounded.region 300) client := ⟨heap, before, hcreate, hrun⟩
  have hmem : 48 ∈ client.live := by
    rw [show client.live = [80, 48, 16] from hlive]
    decide
  obtain ⟨freed, hperform, hrejects⟩ := rejects_of_released hreach hmem
  rw [hperform] at hlater
  obtain ⟨⟨turns, last⟩, hplay, hends⟩ := Option.map_eq_some_iff.1 hlater
  obtain ⟨hanswers, hfree⟩ := Prod.mk.inj hends
  have hnone : ∀ turn ∈ turns, ∀ target, turn.answer ≠ .block target := by
    intro turn hturn target hanswer
    have hblock : Answer.block target ∈ turns.map (·.answer) :=
      List.mem_map.2 ⟨turn, hturn, hanswer⟩
    rw [hanswers] at hblock
    simp at hblock
  exact ⟨client, freed, last, turns, hreach, hmem, hperform, run_of_play hplay, hnone, hfree,
    hrejects turns last (run_of_play hplay) hnone⟩

end Client

end BoundaryTag
