import BoundaryTag.Proofs.Client.Invariant
import BoundaryTag.Proofs.Client.Ownership

/-!
# Moving a block

A move allocates, copies and frees. `Client.Moves` says what becomes of the block, of its contents
and of the other blocks, and that the heap decodes to what the first and the last of these steps
lead to on their own; `Client.moves_of_reachable` says it of every move that is not refused. The old
block is still allocated when the new one is taken, which is why its bytes are there to be copied,
and the copy lies in an allocated block when the old one is freed, which is why no tag and no link
is written over it.
-/

namespace BoundaryTag

open HeapM

variable {σ ε : Type} {settings : Settings} {region : Region σ} {client next : Client σ}
  {layout moved : Layout} {address target request : Nat}

/-- A slice starts with the shorter slices from the same address on. -/
theorem Memory.take_slice (memory : Memory) (start : Nat) {count length : Nat}
    (h : count ≤ length) : (memory.slice start length).take count = memory.slice start count := by
  have hpart : ((memory.slice start length).drop 0).take count = memory.slice (start + 0) count :=
    memory.take_drop_slice (by omega)
  exact hpart

/-- A layout moves a block if and only if it can allocate the new one, and frees the old one
then. -/
theorem Layout.reallocate_eq_ok {granted : Nat → Bool} :
    layout.reallocate settings granted address request = .ok (target, moved) ↔
      ∃ placed, layout.allocate settings granted request = .ok (target, placed) ∧
        moved = placed.release address := by
  rw [reallocate]
  cases layout.allocate settings granted request with
  | error reason =>
      constructor
      · intro h
        cases h
      · rintro ⟨placed, h, -⟩
        cases h
  | ok found =>
      obtain ⟨bp, placed⟩ := found
      constructor
      · intro h
        obtain ⟨rfl, rfl⟩ := Prod.mk.inj (Except.ok.inj h)
        exact ⟨placed, rfl, rfl⟩
      · rintro ⟨found, h, rfl⟩
        obtain ⟨rfl, rfl⟩ := Prod.mk.inj (Except.ok.inj h)
        rfl

namespace Client

variable [Provider σ ε]

/-- A call moved a live block to `target`, which no live block had before. -/
structure Moves (client next : Client σ) (address target request : Nat) : Prop where
  fresh : target ∉ client.live
  mem_live : ∀ bp, bp ∈ next.live ↔ bp = target ∨ (bp ∈ client.live ∧ bp ≠ address)
  /-- The new block has room for the request, and starts like the old one. -/
  contents : ∃ old new, client.heap.payload address = .ok old ∧
    next.heap.payload target = .ok new ∧ request ≤ new.length ∧
      new.take (min request old.length) = old.take (min request old.length)
  /-- The headers lead through no allocated block at the old address any more. -/
  gone : ∃ bps, next.heap.blocks = .ok bps ∧
    ¬ (address ∈ bps ∧ next.heap.isAllocated address = .ok true)
  others : ∀ bp ∈ client.live, bp ≠ address → ∃ size bytes,
    (client.heap.blockSize bp = .ok size ∧ next.heap.blockSize bp = .ok size) ∧
      client.heap.payload bp = .ok bytes ∧ next.heap.payload bp = .ok bytes
  /-- Allocating the new block and freeing the old one leads to the same layout. -/
  steps : ∃ placed freed layout, client.perform (.allocate request) = .ok (.block target, placed) ∧
    placed.perform (.release address) = .ok (.done, freed) ∧
      freed.heap.Intact layout ∧ next.heap.Intact layout

/-- A block that was allocated joins the ones that are held. -/
theorem live_of_allocate (h : client.perform (.allocate request) = .ok (.block target, next)) :
    next.live = target :: client.live := by
  rw [live, holdings_of_perform h]
  rfl

/-- A block that was moved is held at its new address only. -/
theorem mem_live_of_reallocate
    (h : client.perform (.reallocate address request) = .ok (.block target, next)) (bp : Nat) :
    bp ∈ next.live ↔ bp = target ∨ (bp ∈ client.live ∧ bp ≠ address) := by
  rw [live, holdings_of_perform h, update, List.map_cons, List.mem_cons]
  refine or_congr_right ?_
  simp only [live, without, List.mem_map, List.mem_filter, decide_eq_true_eq]
  constructor
  · rintro ⟨holding, ⟨hholding, hne⟩, rfl⟩
    exact ⟨⟨holding, hholding, rfl⟩, hne⟩
  · rintro ⟨⟨holding, hholding, rfl⟩, hne⟩
    exact ⟨holding, ⟨hholding, hne⟩, rfl⟩

namespace Tracks

variable [LawfulProvider σ]

/-- A move that was answered is one that the layout allows. -/
theorem exists_reallocate (h : client.Tracks settings region layout)
    (hlive : address ∈ client.live)
    (hperform : client.perform (.reallocate address request) = .ok (.block target, next)) :
    ∃ moved, layout.reallocate settings client.heap.toRegion.grants address request =
        .ok (target, moved) ∧ next.Tracks settings region moved := by
  have hlegal : (Call.reallocate address request).Legal client := hlive
  obtain ⟨hanswer, htracks⟩ := h.perform_eq hlegal hperform
  exact ⟨_, Layout.eq_ok_of_outcome hanswer.symm, htracks⟩

/-- Allocating first and freeing then leads to the layout that a move leads to. -/
theorem exists_steps (h : client.Tracks settings region layout) (hlive : address ∈ client.live)
    (hreallocate : layout.reallocate settings client.heap.toRegion.grants address request =
      .ok (target, moved)) :
    ∃ placed freed, client.perform (.allocate request) = .ok (.block target, placed) ∧
      placed.perform (.release address) = .ok (.done, freed) ∧
        target ∉ client.live ∧ freed.Tracks settings region moved := by
  obtain ⟨grown, hallocate, rfl⟩ := Layout.reallocate_eq_ok.1 hreallocate
  obtain ⟨placed, hplace, hplaced⟩ := h.perform_allocate request
  rw [Layout.perform, hallocate] at hplace hplaced
  have hgrown := live_of_allocate hplace
  obtain ⟨freed, hrelease, hfreed⟩ :=
    hplaced.perform_release (hgrown ▸ List.mem_cons_of_mem target hlive)
  have hnodup := hplaced.nodup_live
  rw [hgrown] at hnodup
  exact ⟨placed, freed, hplace, hrelease, (List.nodup_cons.1 hnodup).1, hfreed⟩

/-- An allocated block is live. -/
theorem live_of_blocks (h : client.Tracks settings region layout) {bps : List Nat}
    (hblocks : client.heap.blocks = .ok bps) (hmem : address ∈ bps)
    (hallocated : client.heap.isAllocated address = .ok true) (hne : address ≠ client.heap.start) :
    address ∈ client.live := by
  rw [h.sound.blocks_eq] at hblocks
  obtain rfl := Except.ok.inj hblocks
  exact h.mem_live.2 ⟨(List.mem_cons.1 hmem).resolve_left hne, hallocated⟩

end Tracks

variable [LawfulProvider σ]

/-- Every move that is not refused leads to a block of its own with the first bytes of the old one,
leaves nothing allocated where the old one was, and touches no other block. -/
theorem moves_of_reachable (hreach : Reachable settings region client)
    (hlive : address ∈ client.live)
    (hperform : client.perform (.reallocate address request) = .ok (.block target, next)) :
    client.Moves next address target request := by
  obtain ⟨layout, htracks⟩ := hreach.exists_tracks
  obtain ⟨moved, hreallocate, hnext⟩ := htracks.exists_reallocate hlive hperform
  obtain ⟨placed, freed, hplace, hrelease, hfresh, hfreed⟩ :=
    htracks.exists_steps hlive hreallocate
  have hlives := mem_live_of_reallocate hperform
  obtain ⟨block, hblock, rfl⟩ := htracks.exists_held hlive
  rw [← htracks.settings_eq] at hreallocate
  obtain ⟨after, taken, hrun, hafter, -, rfl, hroom, hheld, hspares, hslice⟩ :=
    htracks.sound.run_reallocate_of_ok htracks.settled hblock hreallocate
  have haction : (Call.reallocate block.address request).action.run client.heap =
      .ok (.block taken.address) after := run_bind_of_ok hrun
  obtain rfl := heap_of_ok hperform haction
  have hold := (Layout.mem_held.1 hblock).1
  have hnew := (Layout.mem_held.1 (hheld.mem_iff.2 List.mem_cons_self)).1
  have hbounds := htracks.sound.bounds hold
  constructor
  case fresh => exact hfresh
  case mem_live => exact hlives
  case contents =>
    refine ⟨_, _, htracks.sound.payload_eq hold, hnext.sound.payload_eq hnew, ?_, ?_⟩
    · rw [Memory.length_slice]
      simp only [overhead, wordSize] at hroom ⊢
      omega
    · rw [Memory.length_slice, Memory.take_slice _ _ (Nat.min_le_right _ _), Memory.take_slice,
        hslice]
      simp only [overhead, wordSize] at hroom ⊢
      omega
  case gone =>
    refine ⟨_, hnext.sound.blocks_eq, fun ⟨hmem, hallocated⟩ => ?_⟩
    have hstart : block.address ≠ next.heap.start := by
      rw [hspares.start_eq]
      omega
    have hmoved := (hlives _).1 (hnext.live_of_blocks hnext.sound.blocks_eq hmem hallocated hstart)
    rcases hmoved with heq | ⟨-, hne⟩
    · exact hfresh (heq ▸ hlive)
    · exact hne rfl
  case others =>
    intro bp hbp hne
    obtain ⟨other, hother, rfl⟩ := htracks.exists_held hbp
    have hdiffers : other ≠ block := fun heq => hne (congrArg Block.address heq)
    have hkept := (List.mem_erase_of_ne hdiffers).2 hother
    have hbefore := (Layout.mem_held.1 hother).1
    have hafter := (Layout.mem_held.1 (hheld.mem_iff.2 (List.mem_cons_of_mem _ hkept))).1
    exact ⟨other.size, _,
      ⟨htracks.sound.blockSize_eq hbefore, hnext.sound.blockSize_eq hafter⟩,
      htracks.sound.payload_eq hbefore,
      (hspares.payload_eq htracks.sound.toChained hnext.sound.toChained hkept hbefore
        hafter).trans (htracks.sound.payload_eq hbefore)⟩
  case steps =>
    exact ⟨placed, freed, moved, hplace, hrelease, hfreed.sound.intact hfreed.settled,
      hnext.sound.intact hnext.settled⟩

/-- A block moves into the front of the free block before it. What is left of that block and the
last block of the heap are both free then, and join with the old block. -/
theorem moves_of_merging_session : ∃ client next : Client Bounded,
    Reachable ⟨128, 32⟩ (Bounded.region 400) client ∧ client.live = [80] ∧
      client.perform (.reallocate 80 20) = .ok (.block 16, next) ∧
      next.heap.freeBlocks.toOption = some [48] ∧ client.Moves next 80 16 20 := by
  have hseen : (session ⟨128, 32⟩ (Bounded.region 400) [.allocate 56, .allocate 24,
      .write 80 0 [1, 2, 3], .release 16]).map (fun (_, _, client) => (client.live,
        (client.perform (.reallocate 80 20)).toOption.map fun (answer, next) =>
          (answer, next.heap.freeBlocks.toOption))) =
      some ([80], some (.block 16, some [48])) := by
    decide +kernel
  obtain ⟨heap, turns, client, hcreate, hrun, hview⟩ := exists_of_session hseen
  obtain ⟨hlive, hmoved⟩ := Prod.mk.inj hview
  have hreach : Reachable ⟨128, 32⟩ (Bounded.region 400) client := ⟨heap, turns, hcreate, hrun⟩
  cases hperform : client.perform (.reallocate 80 20) with
  | error cause =>
      rw [hperform] at hmoved
      exact nomatch hmoved
  | ok outcome =>
      obtain ⟨answer, next⟩ := outcome
      rw [hperform] at hmoved
      obtain ⟨rfl, hfree⟩ := Prod.mk.inj (Option.some.inj hmoved)
      have hmoves := moves_of_reachable hreach (by rw [hlive]; decide) hperform
      exact ⟨client, next, hreach, hlive, hperform, hfree, hmoves⟩

end Client

end BoundaryTag
