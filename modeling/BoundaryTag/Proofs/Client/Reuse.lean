import BoundaryTag.Client.Script
import BoundaryTag.Proofs.Client.Moving
import BoundaryTag.Proofs.Heap.Restoring

/-!
# Allocating, freeing and allocating again

A block that is freed can be had back by the request that it was allocated for, whatever was written
into it in the meantime: `Client.regains_of_reachable`. The heap is then as it was after the first
allocation, down to the bytes of its old tags and links (`Heap.Restored`).
-/

namespace BoundaryTag

open HeapM

variable {σ ε : Type} {settings : Settings} {region : Region σ} {client next last : Client σ}
  {layout : Layout} {block : Block} {turns : List Turn} {answer : Answer} {request address : Nat}

/-- The second heap is the first one again, apart from the payload of a block of it. -/
structure Heap.Restored (before after : Heap σ) (bp : Nat) : Prop where
  stop_eq : after.stop = before.stop
  free_eq : after.free = before.free
  layout_eq : ∃ layout, before.Intact layout ∧ after.Intact layout
  byte_eq : ∀ address, ¬ before.InPayload bp address →
    after.memory.byte address = before.memory.byte address

/-- Whether only the block at this address is written to in a turn. -/
def Turn.WritesTo (turn : Turn) (address : Nat) : Prop :=
  ∃ offset bytes, turn.call = .write address offset bytes

namespace Client

variable [Provider σ ε]

/-! ## Writing into a block -/

namespace Tracks

/-- A write into a block changes bytes of its payload only. -/
theorem edits_of_write (h : client.Tracks settings region layout) (hblock : block ∈ layout.held)
    {offset : Nat} {bytes : List UInt8}
    (hlegal : (Call.write block.address offset bytes).Legal client)
    (hperform : client.perform (.write block.address offset bytes) = .ok (answer, next)) :
    client.heap.Edits next.heap block.InPayload := by
  obtain ⟨written, hwritten, haddress, hrange⟩ := h.exists_written hlegal
  obtain rfl : written = block := h.sound.tiles.eq_of_address (Layout.mem_held.1 hwritten).1
    (Layout.mem_held.1 hblock).1 haddress
  obtain ⟨hrun, hedits⟩ := h.sound.edits_writePayload hblock hrange
  have haction : (Call.write written.address offset bytes).action.run client.heap =
      .ok .done _ := run_bind_of_ok hrun
  rw [heap_of_ok hperform haction]
  exact hedits

variable [LawfulProvider σ]

/-- After some turns in which only one block is written to, the layout is the same, and so are all
bytes outside of its payload. -/
theorem of_writes (h : client.Tracks settings region layout) (hblock : block ∈ layout.held)
    (hrun : Run client turns last) (hwrites : ∀ turn ∈ turns, turn.WritesTo block.address) :
    last.Tracks settings region layout ∧ ∀ address, ¬ block.InPayload address →
      last.heap.memory.byte address = client.heap.memory.byte address := by
  induction hrun with
  | done client => exact ⟨h, fun _ _ => rfl⟩
  | called hlegal hperform _ ih =>
      rw [List.forall_mem_cons] at hwrites
      obtain ⟨⟨offset, bytes, rfl⟩, hwrites⟩ := hwrites
      obtain ⟨-, htracks⟩ := h.perform_eq hlegal hperform
      have hedits := h.edits_of_write hblock hlegal hperform
      obtain ⟨hlast, hbytes⟩ := ih htracks hwrites
      exact ⟨hlast, fun address hout =>
        (hbytes address hout).trans (hedits.byte_eq address hout)⟩
  | retuned provider _ ih => exact ih (h.retune provider) hwrites

end Tracks

variable [LawfulProvider σ] {placed written : Client σ}

/-- From every state, a block that was allocated, written to and freed is allocated again by the
same request. This time the request asks for no memory, which a watched provider would have on
record. Apart from the payload of the block, the heap is as it was after the first allocation. -/
theorem regains_of_reachable (hreach : Reachable settings region client)
    (hperform : client.perform (.allocate request) = .ok (.block address, placed))
    (hrun : Run placed turns written) (hwrites : ∀ turn ∈ turns, turn.WritesTo address) :
    ∃ freed again, written.perform (.release address) = .ok (.done, freed) ∧
      freed.perform (.allocate request) = .ok (.block address, again) ∧
      freed.heap.growthFor request = none ∧ again.heap.provider = written.heap.provider ∧
      placed.heap.Restored again.heap address := by
  obtain ⟨layout, htracks⟩ := hreach.exists_tracks
  obtain rfl := htracks.settings_eq
  obtain ⟨hanswer, hplaced⟩ :=
    htracks.perform_eq (show (Call.allocate request).Legal client from trivial) hperform
  have hallocate := Layout.eq_ok_of_outcome hanswer.symm
  obtain ⟨source, block, size, hoffers, rfl, hrequest, hsize, hfits, hnext⟩ :=
    htracks.sound.exists_offers htracks.settled hallocate
  rw [Layout.perform, hnext] at hplaced
  have hlive : block.address ∈ placed.live := by
    rw [live_of_allocate hperform]
    exact List.mem_cons_self
  obtain ⟨taken, htaken, haddress⟩ := hplaced.exists_held hlive
  obtain ⟨hwritten, hbytes⟩ := hplaced.of_writes htaken hrun (haddress.symm ▸ hwrites)
  rw [← hwritten.settings_eq] at hsize hplaced htaken hwritten
  obtain ⟨freed, again, hrelease, hfit, hagain, hsound, hsettings, hprovider, hrestored⟩ :=
    hwritten.sound.run_restore hoffers hwritten.settled htaken haddress hrequest hsize hfits
  have hsettled := hplaced.settled
  refine ⟨_, _, perform_of_ok (run_bind_of_ok hrelease), perform_of_ok (run_bind_of_ok hagain), ?_,
    hprovider, ?_⟩
  · show freed.growthFor request = none
    rw [Heap.growthFor, if_neg hrequest, hsettings, hsize]
    dsimp only
    rw [hfit]
  constructor
  case stop_eq => exact hsound.stop_eq.symm.trans hplaced.sound.stop_eq
  case free_eq =>
    have hhead := hsound.lists.head_eq.trans hplaced.sound.lists.head_eq.symm
    have hcount := hsound.lists.count_eq.trans hplaced.sound.lists.count_eq.symm
    exact congrArg₂ FreeList.mk hhead hcount
  case layout_eq => exact ⟨_, hplaced.sound.intact hsettled, hsound.intact hsettled⟩
  case byte_eq =>
    intro address hout
    rw [← haddress, hplaced.sound.inPayload_iff (Layout.mem_held.1 htaken).1] at hout
    exact (hrestored address hout).trans (hbytes address hout)

/-- A watched heap grows into its last block for a request and splits it. The block is filled and
freed, which joins it with the rest, and allocated again: no request but the ones of the first time
is on record. -/
theorem regains_of_growing_session : ∃ (client placed written freed again : Client (Logged Bounded))
    (turns : List Turn), Reachable ⟨64, 32⟩ ((Bounded.region 400).logged []) client ∧
      client.perform (.allocate 60) = .ok (.block 48, placed) ∧ Run placed turns written ∧
      (∀ turn ∈ turns, turn.WritesTo 48) ∧
      written.heap.provider.requests = [⟨16, true⟩, ⟨64, true⟩, ⟨72, true⟩] ∧
      written.perform (.release 48) = .ok (.done, freed) ∧
      freed.perform (.allocate 60) = .ok (.block 48, again) ∧
      again.heap.provider.requests = [⟨16, true⟩, ⟨64, true⟩, ⟨72, true⟩] ∧
      placed.heap.Restored again.heap 48 := by
  let writes : List Call := [.write 48 0 (List.replicate 64 255), .write 48 3 [1, 2]]
  have hseen : (session ⟨64, 32⟩ ((Bounded.region 400).logged []) [.allocate 24]).map
      (fun (_, _, client) => (client.perform (.allocate 60)).toOption.bind
        fun (answer, placed) => (placed.play writes).map fun (turns, written) =>
          (answer, turns.map (·.call), written.heap.provider.requests)) =
      some (some (.block 48, writes, [⟨16, true⟩, ⟨64, true⟩, ⟨72, true⟩])) := by
    decide +kernel
  obtain ⟨heap, before, client, hcreate, hrun, hview⟩ := exists_of_session hseen
  have hreach : Reachable ⟨64, 32⟩ ((Bounded.region 400).logged []) client :=
    ⟨heap, before, hcreate, hrun⟩
  dsimp only at hview
  cases hperform : client.perform (.allocate 60) with
  | error cause =>
      rw [hperform] at hview
      exact nomatch hview
  | ok outcome =>
      obtain ⟨answer, placed⟩ := outcome
      rw [hperform] at hview
      obtain ⟨⟨turns, written⟩, hplay, hends⟩ := Option.map_eq_some_iff.1 hview
      obtain ⟨rfl, hlast⟩ := Prod.mk.inj hends
      obtain ⟨hcalls, hrequests⟩ := Prod.mk.inj hlast
      have hwrites : ∀ turn ∈ turns, turn.WritesTo 48 := by
        intro turn hturn
        have hcall : turn.call ∈ writes := hcalls ▸ List.mem_map_of_mem hturn
        simp only [writes, List.mem_cons, List.not_mem_nil, or_false] at hcall
        rcases hcall with hcall | hcall
        · exact ⟨_, _, hcall⟩
        · exact ⟨_, _, hcall⟩
      obtain ⟨freed, again, hrelease, hagain, -, hprovider, hrestored⟩ :=
        regains_of_reachable hreach hperform (run_of_play hplay) hwrites
      exact ⟨client, placed, written, freed, again, turns, hreach, hperform, run_of_play hplay,
        hwrites, hrequests, hrelease, hagain, hprovider ▸ hrequests, hrestored⟩

end Client

end BoundaryTag
