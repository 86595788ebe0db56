import BoundaryTag.Client.Session
import BoundaryTag.Proofs.Client.Steps
import BoundaryTag.Proofs.Heap.ExactWords
import BoundaryTag.Proofs.Heap.Walks
import BoundaryTag.Provider.Bounded

/-!
# No legal call faults

`Client.answers_of_reachable` says that a heap in use answers every legal call and every question,
and that no word that is written drops a bit of the link or of the size that it stands for. The
latter rests on the size of the memory (`Heap.lossless_of_stop_le`), and no call makes the memory
smaller (`Layout.stop_le_perform`).
-/

namespace BoundaryTag

open HeapM

variable {σ ε : Type} {settings : Settings} {region : Region σ} {client : Client σ}
  {layout next : Layout} {heap : Heap σ}

namespace Heap

/-! ## Questions -/

/-- Every question about the heap and these blocks has an answer. -/
structure Answers (heap : Heap σ) (live : List Nat) : Prop where
  firstFit (size : Nat) : ∃ found, heap.firstFit size = .ok found
  blockSize : ∀ bp ∈ live, ∃ size, heap.blockSize bp = .ok size
  payload : ∀ bp ∈ live, ∃ bytes, heap.payload bp = .ok bytes
  render : ∃ text, heap.render = .ok text
  audit (verbose : Bool) : ∃ report, heap.audit verbose = .ok report ∧
    report.usage.allocatedSize + report.usage.freeSize ≤ heap.stop
  count_le : heap.free.count ≤ heap.stop

end Heap

namespace Layout

variable {granted : Nat → Bool} {request address : Nat}

/-- Allocating moves the end of the heap up, if at all. -/
theorem stop_le_of_allocate (h : layout.allocate settings granted request = .ok (address, next)) :
    layout.stop ≤ next.stop := by
  obtain ⟨size, source, -, -, rfl, ⟨-, rfl⟩ | ⟨-, -, -, hexpand⟩⟩ := exists_of_allocate h
  · exact Nat.le_refl _
  · have hstop : layout.stop + max size settings.chunkSize = source.stop :=
      congrArg (fun grown => grown.2.stop) hexpand
    exact (Nat.le_add_right _ _).trans (Nat.le_of_eq hstop)

/-- No call moves the end of the heap down. -/
theorem stop_le_perform (layout : Layout) (settings : Settings) (granted : Nat → Bool)
    (call : Call) : layout.stop ≤ (layout.perform settings granted call).2.stop := by
  cases call with
  | release address => exact Nat.le_refl _
  | write address offset bytes => exact Nat.le_refl _
  | allocate request =>
      rw [perform]
      cases hallocate : layout.allocate settings granted request with
      | error reason => exact Nat.le_refl _
      | ok outcome => exact stop_le_of_allocate hallocate
  | reallocate address request =>
      rw [perform, reallocate]
      cases hallocate : layout.allocate settings granted request with
      | error reason => exact Nat.le_refl _
      | ok outcome =>
          have hstop : layout.stop ≤ outcome.2.stop := stop_le_of_allocate hallocate
          exact hstop

end Layout

/-- A sound heap has an answer to every question about it and its allocated blocks. -/
theorem Heap.Sound.answers (h : heap.Sound layout) {live : List Nat}
    (hlive : ∀ bp ∈ live, ∃ block ∈ layout.blocks, block.address = bp) : heap.Answers live where
  firstFit size := ⟨_, h.firstFit_eq size⟩
  blockSize bp hbp := by
    obtain ⟨block, hblock, rfl⟩ := hlive bp hbp
    exact ⟨_, h.blockSize_eq hblock⟩
  payload bp hbp := by
    obtain ⟨block, hblock, rfl⟩ := hlive bp hbp
    exact ⟨_, h.payload_eq hblock⟩
  render := h.exists_render
  audit verbose := by
    obtain ⟨report, haudit, husage⟩ := h.exists_audit verbose
    have hsum := h.tiles.totalSize_eq
    have hstop := h.stop_eq
    refine ⟨report, haudit, ?_⟩
    rw [husage, Usage.ofBlocks_sum]
    omega
  count_le := by
    rw [h.lists.count_eq]
    exact h.length_order_le

namespace Client

variable [Provider σ ε] [LawfulProvider σ]

/-- Every legal call is carried out or refused, and drops no bit of a link or a size; every question
is answered. No memory is ever given back, so the heap that a call leaves is the largest one that it
works on. -/
theorem answers_of_reachable (hreach : Reachable settings region client) :
    client.heap.Answers client.live ∧
      ∀ call : Call, call.Legal client → ∃ answer after,
        client.perform call = .ok (answer, after) ∧ client.heap.stop ≤ after.heap.stop ∧
          after.heap.Lossless := by
  obtain ⟨layout, htracks⟩ := hreach.exists_tracks
  refine ⟨htracks.sound.answers fun bp hbp => ?_, fun call hlegal => ?_⟩
  · obtain ⟨block, hblock, haddress⟩ := htracks.exists_held hbp
    exact ⟨block, (Layout.mem_held.1 hblock).1, haddress⟩
  · obtain ⟨after, hperform, hafter⟩ := htracks.perform hlegal
    refine ⟨_, after, hperform, ?_, Heap.lossless_of_stop_le hafter.sound.stop_le⟩
    rw [← htracks.sound.stop_eq, ← hafter.sound.stop_eq]
    exact layout.stop_le_perform settings client.heap.toRegion.grants call

/-- With no memory left to grow into, a full heap still answers. -/
theorem answers_of_full_session : ∃ client : Client Bounded,
    Reachable ⟨64, 32⟩ (Bounded.region 200) client ∧ client.live = [16, 80, 48] ∧
      client.heap.Answers client.live ∧ ∃ answer after,
        client.perform (.reallocate 16 0xffff_ffff_ffff_ffff) = .ok (answer, after) ∧
          client.heap.stop ≤ after.heap.stop ∧ after.heap.Lossless := by
  have hseen : (session ⟨64, 32⟩ (Bounded.region 200) [.allocate 24, .allocate 24, .allocate 50,
      .allocate 40, .release 16, .write 48 3 [7, 7], .allocate 1, .reallocate 80 56,
      .allocate 24]).map (fun (_, _, client) => client.live) = some [16, 80, 48] := by
    decide +kernel
  obtain ⟨heap, turns, client, hcreate, hrun, hlive⟩ := exists_of_session hseen
  have hreach : Reachable ⟨64, 32⟩ (Bounded.region 200) client := ⟨heap, turns, hcreate, hrun⟩
  have hlegal : (Call.reallocate 16 0xffff_ffff_ffff_ffff).Legal client := by
    show 16 ∈ client.live
    rw [show client.live = [16, 80, 48] from hlive]
    decide
  obtain ⟨hanswers, hperform⟩ := answers_of_reachable hreach
  exact ⟨client, hreach, hlive, hanswers, hperform _ hlegal⟩

end Client

end BoundaryTag
