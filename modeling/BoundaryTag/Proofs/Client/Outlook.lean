import BoundaryTag.Client.Script
import BoundaryTag.Proofs.Audit.Verdict
import BoundaryTag.Proofs.Client.Invariant
import BoundaryTag.Proofs.Layout.Shift

/-!
# What can be seen of a heap

A layout that starts at address zero stands for all heaps that look like it, wherever they are:
`Heap.Sound.outlook_eq` says that what can be seen of a heap is told by its layout, moved down to
zero. `Settings.enact` follows a script on such layouts, knowing only the settings and which
requests for more memory are granted. The names in a script mean the same blocks on the heap and on
the layout (`Instruction.Allows.perform_eq`).
-/

namespace BoundaryTag

variable {σ : Type} {layout : Layout}

/-! ## Scripts on layouts -/

/-- The address of the block that was returned at this turn. -/
def addressAt (past : List Answer) (turn : Nat) : Nat :=
  match past[turn]? with
  | some (.block address) => address
  | _ => 0

/-- The call that an instruction asks for, with nothing to be written. -/
def Instruction.call (past : List Answer) : Instruction → Call
  | .allocate request => .allocate request
  | .release turn => .release (addressAt past turn)
  | .reallocate turn request => .reallocate (addressAt past turn) request
  | .write turn => .write (addressAt past turn) 0 []

/-- What can be seen of a block. -/
def Block.outline (block : Block) : Int × Nat × Bool := (block.address, block.size, block.allocated)

namespace Layout

/-- What can be seen of a heap with this layout, when its prologue is at the origin. -/
def outlook (layout : Layout) (requests : List Request) : Outlook where
  blocks := (⟨0, overhead, true⟩ :: layout.blocks).map Block.outline
  freeBlocks := layout.order.map Nat.cast
  tally := {}
  usage := .ofBlocks layout.stop layout.blocks
  requests

/-- What is seen of a script, given the answers and the requests before, and the outcomes of the
requests to come. -/
def enact (settings : Settings) (verdict : Nat → Bool) :
    List Answer → List Request → Layout → List Instruction → List Sight
  | _, _, _, [] => []
  | past, requests, layout, instruction :: script =>
      let call := instruction.call past
      let granted := verdict requests.length
      let (answer, next) := layout.perform settings (fun _ => granted) call
      let asked := (layout.growthFor settings call.request).toList.map (Request.mk · granted)
      ⟨answer.seenFrom 0, next.outlook (requests ++ asked)⟩ ::
        enact settings verdict (past ++ [answer]) (requests ++ asked) next script

end Layout

/-- What is seen of a script on a new heap, given the outcomes of all requests. -/
def Settings.enact (settings : Settings) (verdict : Nat → Bool) (script : List Instruction) :
    Except Refusal (List Sight) :=
  match settings.check with
  | .error reason => .error reason
  | .ok _ =>
      if verdict 0 = true ∧ verdict 1 = true then
        let layout := Layout.initial 0 settings.chunkSize
        let requests := [⟨settings.chunkSize, true⟩]
        .ok (⟨.ok none, layout.outlook requests⟩ ::
          layout.enact settings (fun index => verdict (index + 1)) [] requests script)
      else .error .outOfMemory

/-! ## Names and places -/

/-- The answers that were given at a distance name the same blocks, moved up. -/
theorem addressAt_shift {past : List Answer} {turn address distance : Nat}
    (h : (past.map (Answer.shift distance))[turn]? = some (.block address)) :
    address = addressAt past turn + distance := by
  rw [List.getElem?_map, Option.map_eq_some_iff] at h
  obtain ⟨answer, hanswer, hshift⟩ := h
  cases answer with
  | block found =>
      rw [addressAt, hanswer]
      exact (Answer.block.inj hshift).symm
  | done => exact nomatch hshift
  | refused reason => exact nomatch hshift

/-- What an instruction allows does to a layout what its call does, moved up. -/
theorem Instruction.Allows.perform_eq {past : List Answer} {distance : Nat}
    {instruction : Instruction} {call : Call}
    (h : instruction.Allows (past.map (Answer.shift distance)) call) (settings : Settings)
    (layout : Layout) (granted : Nat → Bool) :
    call.request = (instruction.call past).request ∧
      layout.perform settings granted call =
        layout.perform settings granted ((instruction.call past).shift distance) := by
  cases instruction <;> cases call
  case allocate.allocate asked request =>
    obtain rfl : request = asked := h
    exact ⟨rfl, rfl⟩
  case release.release turn address =>
    obtain rfl := addressAt_shift h
    exact ⟨rfl, rfl⟩
  case reallocate.reallocate turn asked address request =>
    obtain ⟨haddress, rfl⟩ := h
    obtain rfl := addressAt_shift haddress
    exact ⟨rfl, rfl⟩
  case write.write turn address offset bytes => exact ⟨rfl, rfl⟩
  all_goals exact h.elim

/-- The distance of an address that was moved up by as much as the origin. -/
theorem sub_origin (address origin : Nat) :
    ((address + origin : Nat) : Int) - origin = address := by
  omega

theorem Answer.seenFrom_shift (origin : Nat) (answer : Answer) :
    (answer.shift origin).seenFrom origin = answer.seenFrom 0 := by
  cases answer with
  | block address =>
      have hplace := sub_origin address origin
      show Except.ok (some (((address + origin : Nat) : Int) - origin)) = .ok (some (address - 0))
      rw [hplace, Int.sub_zero]
  | done => rfl
  | refused reason => rfl

theorem Block.totalSize_shift (distance : Nat) (blocks : List Block) :
    totalSize (blocks.map (shift distance)) = totalSize blocks := by
  induction blocks with
  | nil => rfl
  | cons block blocks ih => rw [List.map_cons, totalSize, totalSize, ih, size_shift]

theorem Usage.ofBlocks_shift (distance heapSize : Nat) (blocks : List Block) :
    ofBlocks heapSize (blocks.map (Block.shift distance)) = ofBlocks heapSize blocks := by
  have hallocated : (fun block : Block => block.allocated) ∘ Block.shift distance =
      fun block => block.allocated := rfl
  have hfree : (fun block : Block => !block.allocated) ∘ Block.shift distance =
      fun block => !block.allocated := rfl
  simp only [ofBlocks, List.filter_map, hallocated, hfree, Block.totalSize_shift, List.length_map]

/-! ## What is seen of a heap -/

namespace Heap

variable {heap : Heap σ} {origin : Nat}

/-- Looking at one block after the other sees each of them, if each can be seen. -/
theorem mapM_eq_ok {α β : Type} {look : α → Except Fault β} {value : α → β} {listed : List α}
    (hlook : ∀ item ∈ listed, look item = .ok (value item)) :
    listed.mapM look = .ok (listed.map value) := by
  induction listed with
  | nil => rfl
  | cons item listed ih =>
      rw [List.forall_mem_cons] at hlook
      rw [List.mapM_cons, hlook.1, ok_bind, ih hlook.2]
      rfl

/-- The headers show the blocks of the layout at their distances from the start. -/
theorem Chained.outline_eq (h : heap.Chained (layout.shift heap.start)) :
    heap.outline heap.start =
      .ok ((⟨0, overhead, true⟩ :: layout.blocks).map Block.outline) := by
  have hlist : heap.start :: (layout.shift heap.start).blocks.map (·.address) =
      (⟨0, overhead, true⟩ :: layout.blocks).map fun block => block.address + heap.start := by
    rw [List.map_cons, Nat.zero_add, Layout.shift, List.map_map]
    rfl
  rw [outline, h.blocks_eq, ok_bind, hlist, List.mapM_map]
  refine mapM_eq_ok fun block hblock => ?_
  have htag : heap.blockSize (block.address + heap.start) = .ok block.size ∧
      heap.isAllocated (block.address + heap.start) = .ok block.allocated := by
    cases List.mem_cons.1 hblock with
    | inl heq =>
        subst heq
        rw [Nat.zero_add]
        exact ⟨(blockSize_of_header h.header_start).trans
          (congrArg _ (Tag.size_ofSize (by simp) (by simp) true)), h.isAllocated_start⟩
    | inr hmem =>
        have hshifted : block.shift heap.start ∈ (layout.shift heap.start).blocks :=
          List.mem_map_of_mem hmem
        exact ⟨h.blockSize_eq hshifted, h.isAllocated_eq hshifted⟩
  rw [Function.comp_apply, sub_origin, htag.1, ok_bind, htag.2]
  rfl

/-- What is seen of a sound heap is told by its layout and the record of its requests. -/
theorem Sound.outlook_eq {heap : Heap (Logged σ)} (h : heap.Sound (layout.shift heap.start))
    (hsettled : (layout.shift heap.start).Settled) :
    heap.outlook heap.start = .ok (layout.outlook heap.provider.requests.tail) := by
  have hstop : layout.stop + heap.start = heap.stop := h.stop_eq
  have hsummary := (h.wellFormed hsettled).toRepresents.summary_eq h.stop_lt h.wordSize_le_start
    fun block hblock => ((h.intact hsettled).aligned block hblock).1
  have hfree : ((layout.shift heap.start).order.map fun (bp : Nat) => (bp : Int) - heap.start) =
      layout.order.map Nat.cast := by
    rw [Layout.shift, List.map_map]
    refine List.map_congr_left fun bp _ => ?_
    exact sub_origin bp heap.start
  rw [outlook, h.outline_eq, ok_bind, h.freeBlocks_eq, ok_bind, hsummary, ok_bind, hfree]
  rw [← hstop, Layout.shift, Usage.ofBlocks_shift]
  simp only [Usage.ofBlocks, Nat.add_sub_cancel]
  rfl

end Heap

end BoundaryTag
