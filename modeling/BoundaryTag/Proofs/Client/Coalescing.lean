import BoundaryTag.Proofs.Client.Safety
import BoundaryTag.Proofs.Layout.Runs

/-!
# Freeing in any order

One free looks at two neighbours and knows nothing of those to come. `Client.releases_of_reachable`
says that all the same some frees in a row leave the blocks that marking and coalescing leave, so
that their order does not show, and that freeing everything leaves one block.
-/

namespace BoundaryTag

variable {σ ε : Type} {settings : Settings} {region : Region σ} {client last : Client σ}
  {layout : Layout} {heap : Heap σ} {turns : List Turn}

namespace Heap.Sound

/-- Allocated blocks can be freed one after the other. -/
theorem run_releases (h : heap.Sound layout) (hsettled : layout.Settled) {order : List Nat}
    (hnodup : order.Nodup) (hheld : ∀ address ∈ order, address ∈ layout.held.map (·.address)) :
    ∃ after, (order.forM release).run heap = .ok () after ∧
      after.Sound (order.foldl Layout.release layout) ∧
      (order.foldl Layout.release layout).Settled ∧ after.start = heap.start := by
  induction order generalizing heap layout with
  | nil => exact ⟨heap, rfl, h, hsettled, rfl⟩
  | cons address order ih =>
      rw [List.forall_mem_cons] at hheld
      obtain ⟨hnot, hothers⟩ := List.nodup_cons.1 hnodup
      obtain ⟨block, hblock, rfl⟩ := List.mem_map.1 hheld.1
      obtain ⟨freed, hrelease, hsound, hfreed, hperm, hspares⟩ := h.run_release hsettled hblock
      have hrest : ∀ other ∈ order,
          other ∈ (layout.release block.address).held.map (·.address) := by
        intro other hother
        have hmem := (hperm.map Block.address).mem_iff.1 (hheld.2 other hother)
        exact (List.mem_cons.1 hmem).resolve_left fun heq => hnot (heq ▸ hother)
      obtain ⟨after, hrun, hafter, hafterSettled, hstart⟩ := ih hsound hfreed hothers hrest
      refine ⟨after, ?_, hafter, hafterSettled, hstart.trans hspares.start_eq⟩
      show (release block.address >>= fun _ => order.forM release).run heap = .ok () after
      rw [HeapM.run_bind_of_ok hrelease]
      exact hrun

end Heap.Sound

namespace Layout

/-- No run moves the end of the heap down. -/
theorem stop_le_replay (layout : Layout) (settings : Settings) (turns : List Turn) :
    layout.stop ≤ (layout.replay settings turns).2.stop := by
  induction turns generalizing layout with
  | nil => exact Nat.le_refl _
  | cons turn turns ih =>
      have hfirst := layout.stop_le_perform settings turn.granted turn.call
      exact hfirst.trans (ih _)

end Layout

namespace Client

variable [Provider σ ε] [LawfulProvider σ]

/-- A heap in use has room for at least one block. -/
theorem Reachable.start_lt_stop (hreach : Reachable settings region client) :
    client.heap.start + overhead < client.heap.stop := by
  obtain ⟨heap, turns, hcreate, hrun⟩ := hreach
  have hinitial := tracks_of_create hcreate
  have htracks := (hinitial.run hrun).2
  have hstart : client.heap.start = heap.start := htracks.start_eq.trans hinitial.start_eq.symm
  have hstop := Layout.stop_le_replay (.initial heap.start settings.chunkSize) settings turns
  rw [htracks.sound.stop_eq] at hstop
  have hvalid := htracks.settings_eq ▸ htracks.sound.settings_valid
  have hsmallest := hvalid.smallest_le
  have hchunk := hvalid.minBlock_le
  simp only [Layout.initial, smallestBlock, overhead, wordSize] at *
  omega

/-- Held blocks can be freed in any order. All orders leave the same blocks: those from before, with
every maximal run of blocks that were free or are freed made one free block. The heap keeps its end,
and when all held blocks are freed, it is one free block. -/
theorem releases_of_reachable (hreach : Reachable settings region client) :
    ∃ layout, client.heap.Represents layout ∧
      ∀ freed order : List Nat, freed.Nodup → freed ⊆ client.live → order.Perm freed →
        ∃ after next, (order.forM Heap.release).run client.heap = .ok () after ∧
          after.Represents next ∧
          next.blocks = coalesced (layout.blocks.map (Block.markFreeIn freed)) ∧
          after.stop = client.heap.stop ∧
          (client.live ⊆ freed → next.blocks = [⟨client.heap.start + overhead,
            client.heap.stop - client.heap.start - overhead, false⟩]) := by
  have hroom := hreach.start_lt_stop
  obtain ⟨layout, htracks⟩ := hreach.exists_tracks
  have hsound := htracks.sound
  refine ⟨layout, (hsound.wellFormed htracks.settled).toRepresents,
    fun freed order hnodup hlive hperm => ?_⟩
  have hheld : ∀ address ∈ order, address ∈ layout.held.map (·.address) :=
    fun address hmem => htracks.held.mem_iff.2 (hlive (hperm.subset hmem))
  obtain ⟨after, hrun, hafter, hafterSettled, hstart⟩ :=
    hsound.run_releases htracks.settled (hperm.nodup_iff.2 hnodup) hheld
  have hmark : Block.markFreeIn order = Block.markFreeIn freed := by
    funext block
    simp only [Block.markFreeIn, hperm.mem_iff]
  have hblocks : (order.foldl Layout.release layout).blocks =
      mergeFree (layout.blocks.map (Block.markFreeIn freed)) := by
    rw [Layout.blocks_foldl_release order layout htracks.settled.apart, hmark]
  refine ⟨after, _, hrun, (hafter.wellFormed hafterSettled).toRepresents,
    hblocks.trans (mergeFree_eq_coalesced _), ?_, fun hall => ?_⟩
  · rw [← hafter.stop_eq, ← hsound.stop_eq, Layout.stop_foldl_release]
  · have hallocated : layout.allocated ⊆ freed := fun address hmem =>
      hall (htracks.held.mem_iff.1 hmem)
    have htiles := hsound.tiles.map_markFreeIn freed
    rw [hsound.stop_eq] at htiles
    rw [hblocks, htiles.mergeFree_of_free hroom (Layout.forall_free_markFreeIn hallocated),
      Nat.sub_add_eq]

/-- The three blocks of a heap in which two others are free are freed from the middle outwards. -/
theorem releases_of_scattered_session : ∃ client : Client Bounded,
    Reachable ⟨64, 32⟩ (Bounded.region 300) client ∧ client.live = [144, 80, 16] ∧
      client.heap.freeBlocks.toOption = some [48, 176] ∧
      ∃ layout, client.heap.Represents layout ∧
        ∃ after next, ([80, 16, 144].forM Heap.release).run client.heap = .ok () after ∧
          after.Represents next ∧
          next.blocks = coalesced (layout.blocks.map (Block.markFreeIn [16, 80, 144])) ∧
          after.stop = client.heap.stop ∧ next.blocks = [⟨client.heap.start + overhead,
            client.heap.stop - client.heap.start - overhead, false⟩] := by
  have hseen : (session ⟨64, 32⟩ (Bounded.region 300) [.allocate 24, .allocate 24, .allocate 50,
      .allocate 24, .release 48]).map (fun (_, _, client) =>
        (client.live, client.heap.freeBlocks.toOption)) =
      some ([144, 80, 16], some [48, 176]) := by
    decide +kernel
  obtain ⟨heap, turns, client, hcreate, hrun, hview⟩ := exists_of_session hseen
  obtain ⟨hlive, hfree⟩ := Prod.mk.inj hview
  have hreach : Reachable ⟨64, 32⟩ (Bounded.region 300) client := ⟨heap, turns, hcreate, hrun⟩
  obtain ⟨layout, hrepresents, hreleases⟩ := releases_of_reachable hreach
  have hheld : [16, 80, 144] ⊆ client.live := by
    rw [show client.live = [144, 80, 16] from hlive]
    decide
  have hall : client.live ⊆ [16, 80, 144] := by
    rw [show client.live = [144, 80, 16] from hlive]
    decide
  obtain ⟨after, next, hfreed, hafter, hblocks, hstop, hone⟩ :=
    hreleases [16, 80, 144] [80, 16, 144] (by decide) hheld (by decide)
  exact ⟨client, hreach, hlive, hfree, layout, hrepresents, after, next, hfreed, hafter, hblocks,
    hstop, hone hall⟩

end Client

end BoundaryTag
