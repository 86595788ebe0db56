import BoundaryTag.Client.Session
import BoundaryTag.Proofs.Client.Steps
import BoundaryTag.Proofs.Heap.Walks
import BoundaryTag.Provider.Bounded

/-!
# The invariant of every run

`Heap.Intact` is what the bytes of a heap in use look like, to whoever walks over it: the layout
behind it is the one that the headers and the links lead through. `Client.intact_of_reachable` says
that every run keeps it.
-/

namespace BoundaryTag

variable {σ ε : Type} {settings : Settings} {region : Region σ} {client : Client σ}
  {layout : Layout} {heap : Heap σ}

/-- The heap is well-formed, its blocks are aligned, the headers lead from the prologue through all
blocks, and the links lead through the free ones, each of them once. -/
structure Heap.Intact (heap : Heap σ) (layout : Layout) : Prop extends heap.WellFormed layout where
  aligned : ∀ block ∈ layout.blocks, block.address % alignment = 0 ∧ block.size % alignment = 0
  blocks_eq : heap.blocks = .ok (heap.start :: layout.blocks.map (·.address))
  freeBlocks_eq : heap.freeBlocks = .ok layout.order
  order_perm : layout.order.Perm (freeAddresses layout.blocks)

/-- A sound heap with a settled layout is intact. -/
theorem Heap.Sound.intact (h : heap.Sound layout) (hsettled : layout.Settled) :
    heap.Intact layout where
  toWellFormed := h.wellFormed hsettled
  aligned block hblock := ⟨h.address_aligned hblock, h.size_aligned block hblock⟩
  blocks_eq := h.blocks_eq
  freeBlocks_eq := h.freeBlocks_eq
  order_perm := by
    refine (List.perm_ext_iff_of_nodup h.order_nodup ?_).2 fun bp =>
      ⟨h.order_free bp, hsettled.listed bp⟩
    exact h.tiles.nodup_addresses.sublist (List.filter_sublist.map _)

namespace Client

variable [Provider σ ε] [LawfulProvider σ]

/-- Whatever legal calls are made, and whichever requests for more memory are granted, the heap
keeps its settings and stays intact. -/
theorem intact_of_reachable (hreach : Reachable settings region client) :
    client.heap.settings = settings ∧ ∃ layout, client.heap.Intact layout := by
  obtain ⟨layout, htracks⟩ := hreach.exists_tracks
  exact ⟨htracks.settings_eq, layout, htracks.sound.intact htracks.settled⟩

/-- Blocks are split, merged and moved, the heap grows twice, and a request is refused. -/
theorem intact_of_busy_session : ∃ client : Client Bounded,
    Reachable ⟨64, 32⟩ (Bounded.region 400) client ∧ client.live = [192, 80] ∧
      client.heap.settings = ⟨64, 32⟩ ∧ ∃ layout, client.heap.Intact layout := by
  have hseen : (session ⟨64, 32⟩ (Bounded.region 400) [.allocate 10, .allocate 20,
      .write 48 2 [1, 2, 3], .allocate 100, .release 16, .reallocate 48 40, .allocate 1000]).map
      (fun (_, _, client) => client.live) = some [192, 80] := by
    decide +kernel
  obtain ⟨heap, turns, client, hcreate, hrun, hlive⟩ := exists_of_session hseen
  have hreach : Reachable ⟨64, 32⟩ (Bounded.region 400) client := ⟨heap, turns, hcreate, hrun⟩
  exact ⟨client, hreach, hlive, intact_of_reachable hreach⟩

end Client

end BoundaryTag
