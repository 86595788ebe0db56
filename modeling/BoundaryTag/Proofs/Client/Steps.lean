import BoundaryTag.Layout.Mirror
import BoundaryTag.Proofs.Heap.Creation
import BoundaryTag.Proofs.Heap.Operations

/-!
# What one call of a client preserves

`Client.Tracks` relates a client to the layout of its heap: the allocated blocks are those that the
client holds, with the bytes that it expects there. Every legal call is carried out, gives the
answer that the layout gives, and leads to a client that tracks the next layout
(`Client.Tracks.perform`).
-/

namespace BoundaryTag

open HeapM

variable {σ ε : Type} {settings : Settings} {region : Region σ} {client : Client σ}
  {layout next : Layout} {heap after : Heap σ} {block : Block} {kept : List Block}

/-- The allocated blocks of the layout are those that the client holds, with the bytes that it
expects there, and nothing below the heap has changed. -/
structure Client.Tracks (settings : Settings) (region : Region σ) (client : Client σ)
    (layout : Layout) : Prop where
  sound : client.heap.Sound layout
  settled : layout.Settled
  settings_eq : client.heap.settings = settings
  start_eq : client.heap.start = (Heap.nextPrologue region.memory).address
  byte_eq : ∀ address < region.memory.size,
    client.heap.memory.byte address = region.memory.byte address
  held : layout.allocated.Perm client.live
  contents : ∀ holding ∈ client.holdings,
    client.heap.payload holding.address = .ok holding.contents

namespace Heap

/-- A heap of the same bytes over another provider has the same payloads. -/
theorem payload_congr_region {other : Region σ} (hmemory : other.memory = heap.memory) (bp : Nat) :
    payload { heap with toRegion := other } bp = heap.payload bp := by
  obtain ⟨provider, memory⟩ := other
  obtain rfl : memory = heap.memory := hmemory
  rfl

end Heap

namespace Client.Tracks

/-- Only the bytes of the memory matter, not the provider. -/
theorem congr_region (h : client.Tracks settings region layout) (other : Region σ)
    (hmemory : other.memory = client.heap.memory) :
    Tracks settings region ⟨{ client.heap with toRegion := other }, client.holdings⟩ layout where
  sound := h.sound.congr_region hmemory
  settled := h.settled
  settings_eq := h.settings_eq
  start_eq := h.start_eq
  byte_eq := by
    show ∀ address < region.memory.size, other.memory.byte address = _
    rw [hmemory]
    exact h.byte_eq
  held := h.held
  contents holding hholding :=
    (Heap.payload_congr_region hmemory _).trans (h.contents holding hholding)

/-- What a provider will grant does not matter to what is there. -/
theorem retune (h : client.Tracks settings region layout) (provider : σ) :
    (client.retune provider).Tracks settings region layout :=
  h.congr_region ⟨provider, client.heap.memory⟩ rfl

/-- A live address is that of an allocated block. -/
theorem exists_held (h : client.Tracks settings region layout) {address : Nat}
    (haddress : address ∈ client.live) : ∃ block ∈ layout.held, block.address = address :=
  List.mem_map.1 (h.held.mem_iff.2 haddress)

/-- The held addresses are different from each other. -/
theorem nodup_live (h : client.Tracks settings region layout) : client.live.Nodup :=
  h.held.nodup_iff.1 (h.sound.tiles.nodup_addresses.sublist (List.filter_sublist.map _))

/-- What an operation spares is still what the client expects there. -/
theorem payload_of_spares (h : client.Tracks settings region layout) (hsound : after.Sound next)
    (hspares : client.heap.Spares after kept) (hkept : kept ⊆ layout.held)
    (hkeptNext : kept ⊆ next.held) {holding : Holding} (hholding : holding ∈ client.holdings)
    (haddress : holding.address ∈ kept.map (·.address)) :
    after.payload holding.address = .ok holding.contents := by
  obtain ⟨block, hblock, heq⟩ := List.mem_map.1 haddress
  rw [← h.contents holding hholding, ← heq]
  exact hspares.payload_eq h.sound.toChained hsound.toChained hblock
    (Layout.mem_held.1 (hkept hblock)).1 (Layout.mem_held.1 (hkeptNext hblock)).1

/-- What the client expects in a block is the payload of the block. -/
theorem contents_eq (h : client.Tracks settings region layout) (hblock : block ∈ layout.held)
    {holding : Holding} (hholding : holding ∈ client.holdings)
    (haddress : holding.address = block.address) :
    holding.contents = client.heap.memory.slice block.address (block.size - overhead) := by
  have hcontents := h.contents holding hholding
  rw [haddress, h.sound.payload_eq (Layout.mem_held.1 hblock).1] at hcontents
  exact (Except.ok.inj hcontents).symm

/-- A legal write is one inside of an allocated block. -/
theorem exists_written (h : client.Tracks settings region layout) {address offset : Nat}
    {bytes : List UInt8} (hlegal : (Call.write address offset bytes).Legal client) :
    ∃ block ∈ layout.held, block.address = address ∧
      offset + bytes.length ≤ block.size - overhead := by
  obtain ⟨holding, hholding, rfl, hrange⟩ := hlegal
  obtain ⟨block, hblock, haddress⟩ := h.exists_held (List.mem_map_of_mem hholding)
  rw [h.contents_eq hblock hholding haddress.symm, Memory.length_slice] at hrange
  exact ⟨block, hblock, haddress, hrange⟩

/-- After an operation that spared what is below the heap, the client tracks the next layout if its
record fits. -/
theorem of_spares (h : client.Tracks settings region layout) (hsound : after.Sound next)
    (hsettled : next.Settled) (hspares : client.heap.Spares after kept) {holdings : List Holding}
    (hheld : next.allocated.Perm (holdings.map (·.address)))
    (hcontents : ∀ holding ∈ holdings, after.payload holding.address = .ok holding.contents) :
    Tracks settings region ⟨after, holdings⟩ next where
  sound := hsound
  settled := hsettled
  settings_eq := hspares.settings_eq.trans h.settings_eq
  start_eq := hspares.start_eq.trans h.start_eq
  byte_eq address hinside := by
    refine (hspares.byte_eq_below address ?_).trans (h.byte_eq address hinside)
    rw [h.start_eq]
    simp only [Heap.nextPrologue, wordSize]
    omega
  held := hheld
  contents := hcontents

/-- After an operation that granted a block and spared some others, the client tracks the next
layout if it records exactly these. -/
theorem of_grant (h : client.Tracks settings region layout) (hsound : after.Sound next)
    (hsettled : next.Settled) (hspares : client.heap.Spares after kept)
    (hheld : next.held.Perm (block :: kept)) (hkept : kept ⊆ layout.held)
    {holdings : List Holding} (hsubset : holdings ⊆ client.holdings)
    (hholdings : (kept.map (·.address)).Perm (holdings.map (·.address))) :
    Tracks settings region
      ⟨after, ⟨block.address, after.contents block.address⟩ :: holdings⟩ next := by
  have hkeptNext : kept ⊆ next.held := fun other hother =>
    hheld.mem_iff.2 (List.mem_cons_of_mem _ hother)
  have hallocated : next.allocated.Perm (block.address :: kept.map (·.address)) :=
    hheld.map Block.address
  refine h.of_spares hsound hsettled hspares (hallocated.trans (hholdings.cons _))
    (List.forall_mem_cons.2 ⟨?_, fun holding hholding => ?_⟩)
  · have hpayload := hsound.payload_eq (Layout.mem_held.1 (hheld.mem_iff.2 List.mem_cons_self)).1
    show after.payload block.address = .ok (after.contents block.address)
    rw [Heap.contents, hpayload]
  · exact h.payload_of_spares hsound hspares hkept hkeptNext (hsubset hholding)
      (hholdings.mem_iff.2 (List.mem_map_of_mem hholding))

/-- Without one of its blocks, a client holds the others. -/
theorem perm_without (h : client.Tracks settings region layout)
    (hperm : layout.held.Perm (block :: kept)) :
    (kept.map (·.address)).Perm ((client.without block.address).map (·.address)) := by
  have hallocated : layout.allocated.Perm (block.address :: kept.map (·.address)) :=
    hperm.map Block.address
  have herased := (h.held.symm.trans hallocated).erase block.address
  have hwithout : (client.without block.address).map (·.address) =
      client.live.filter (· != block.address) := by
    rw [live, List.filter_map, without]
    refine congrArg _ (List.filter_congr fun holding _ => ?_)
    show decide (holding.address ≠ block.address) = !(holding.address == block.address)
    rw [beq_eq_decide, decide_not]
  rw [List.erase_cons_head, h.nodup_live.erase_eq_filter] at herased
  rw [hwithout]
  exact herased.symm

end Client.Tracks

/-! ## The calls -/

namespace Client

variable [Provider σ ε] {call : Call} {answer : Answer} {reason : Refusal}

theorem perform_of_ok (hrun : call.action.run client.heap = .ok answer heap) :
    client.perform call = .ok (answer, ⟨heap, client.update heap call answer⟩) := by
  rw [perform, hrun]

theorem perform_of_refused (hrun : call.action.run client.heap = .error (.refused reason) heap) :
    client.perform call = .ok (.refused reason, ⟨heap, client.holdings⟩) := by
  rw [perform, hrun]

theorem heap_of_ok {found : Answer} {last : Client σ}
    (hperform : client.perform call = .ok (answer, last))
    (hrun : call.action.run client.heap = .ok found heap) : last.heap = heap := by
  obtain ⟨-, rfl⟩ := Prod.mk.inj (Except.ok.inj (hperform.symm.trans (perform_of_ok hrun)))
  rfl

theorem heap_of_refused {last : Client σ}
    (hperform : client.perform call = .ok (answer, last))
    (hrun : call.action.run client.heap = .error (.refused reason) heap) : last.heap = heap := by
  obtain ⟨-, rfl⟩ := Prod.mk.inj (Except.ok.inj (hperform.symm.trans (perform_of_refused hrun)))
  rfl

end Client

namespace Client.Tracks

variable [Provider σ ε] [LawfulProvider σ] {request address : Nat}

theorem perform_allocate (h : client.Tracks settings region layout) (request : Nat) :
    ∃ after, client.perform (.allocate request) =
        .ok ((layout.perform settings client.heap.toRegion.grants (.allocate request)).1, after) ∧
      after.Tracks settings region
        (layout.perform settings client.heap.toRegion.grants (.allocate request)).2 := by
  obtain rfl := h.settings_eq
  rw [Layout.perform]
  cases hallocate : layout.allocate client.heap.settings client.heap.toRegion.grants request with
  | error reason =>
      obtain ⟨other, hrun, hmemory⟩ := h.sound.run_allocate_of_error hallocate
      exact ⟨_, perform_of_refused (run_bind_of_error hrun), h.congr_region other hmemory⟩
  | ok found =>
      obtain ⟨address, next⟩ := found
      obtain ⟨heap, taken, hrun, hsound, hsettled, rfl, hfits, hheld, hspares⟩ :=
        h.sound.run_allocate_of_ok h.settled hallocate
      exact ⟨_, perform_of_ok (run_bind_of_ok hrun), h.of_grant hsound hsettled hspares hheld
        (List.Subset.refl _) (List.Subset.refl _) h.held⟩

omit [LawfulProvider σ] in
theorem perform_release (h : client.Tracks settings region layout) (hlive : address ∈ client.live) :
    ∃ after, client.perform (.release address) = .ok (.done, after) ∧
      after.Tracks settings region (layout.release address) := by
  obtain ⟨block, hblock, rfl⟩ := h.exists_held hlive
  obtain ⟨heap, hrun, hsound, hsettled, hheld, hspares⟩ := h.sound.run_release h.settled hblock
  have hwithout := h.perm_without hheld
  have hkept : (layout.release block.address).held ⊆ layout.held := fun other hother =>
    hheld.mem_iff.2 (List.mem_cons_of_mem _ hother)
  exact ⟨_, perform_of_ok (run_bind_of_ok hrun), h.of_spares hsound hsettled hspares hwithout
    fun holding hholding => h.payload_of_spares hsound hspares hkept (List.Subset.refl _)
      (List.mem_of_mem_filter hholding)
      (hwithout.mem_iff.2 (List.mem_map_of_mem hholding))⟩

theorem perform_reallocate (h : client.Tracks settings region layout)
    (hlive : address ∈ client.live) (request : Nat) :
    ∃ after, client.perform (.reallocate address request) =
        .ok ((layout.perform settings client.heap.toRegion.grants (.reallocate address request)).1,
          after) ∧
      after.Tracks settings region
        (layout.perform settings client.heap.toRegion.grants (.reallocate address request)).2 := by
  obtain rfl := h.settings_eq
  obtain ⟨block, hblock, rfl⟩ := h.exists_held hlive
  rw [Layout.perform]
  cases hreallocate : layout.reallocate client.heap.settings client.heap.toRegion.grants
      block.address request with
  | error reason =>
      obtain ⟨other, hrun, hmemory⟩ := h.sound.run_reallocate_of_error hblock hreallocate
      exact ⟨_, perform_of_refused (run_bind_of_error hrun), h.congr_region other hmemory⟩
  | ok found =>
      obtain ⟨address, next⟩ := found
      obtain ⟨heap, taken, hrun, hsound, hsettled, rfl, -, hheld, hspares, -⟩ :=
        h.sound.run_reallocate_of_ok h.settled hblock hreallocate
      exact ⟨_, perform_of_ok (run_bind_of_ok hrun), h.of_grant hsound hsettled hspares hheld
        List.erase_subset (List.filter_subset_self _)
        (h.perm_without (List.perm_cons_erase hblock))⟩

omit [LawfulProvider σ] in
theorem perform_write (h : client.Tracks settings region layout) {offset : Nat} {bytes : List UInt8}
    (hlegal : (Call.write address offset bytes).Legal client) :
    ∃ after, client.perform (.write address offset bytes) = .ok (.done, after) ∧
      after.Tracks settings region layout := by
  obtain ⟨block, hblock, rfl, hrange⟩ := h.exists_written hlegal
  obtain ⟨after, hrun, hsound, hspares, hslice⟩ := h.sound.run_writePayload hblock hrange
    List.erase_subset h.sound.nodup_held.not_mem_erase
  refine ⟨_, perform_of_ok (run_bind_of_ok hrun), h.of_spares hsound h.settled hspares ?_ ?_⟩
  · refine h.held.trans (List.Perm.of_eq ?_)
    show _ = (client.holdings.map _).map _
    rw [List.map_map]
    refine List.map_congr_left fun other _ => ?_
    show _ = (if other.address = block.address then other.write offset bytes else other).address
    split <;> rfl
  -- the record of the written block is changed like its payload, the other payloads are spared
  · intro other hother
    obtain ⟨old, hold, rfl⟩ := List.mem_map.1 hother
    by_cases heq : old.address = block.address
    · rw [if_pos heq]
      show after.payload old.address = .ok (old.write offset bytes).contents
      rw [heq, hsound.payload_eq (Layout.mem_held.1 hblock).1, hslice, Holding.write,
        h.contents_eq hblock hold heq]
    · rw [if_neg heq]
      obtain ⟨other, hotherHeld, hotherAddress⟩ := h.exists_held (List.mem_map_of_mem hold)
      have hne : other ≠ block := fun hsame => heq (hsame ▸ hotherAddress).symm
      have hkept : old.address ∈ (layout.held.erase block).map (·.address) :=
        List.mem_map.2 ⟨other, (List.mem_erase_of_ne hne).2 hotherHeld, hotherAddress⟩
      exact h.payload_of_spares hsound hspares List.erase_subset List.erase_subset hold hkept

/-- A legal call is carried out or refused, and its answer and the next layout are those that the
layout tells. -/
theorem perform (h : client.Tracks settings region layout) (hlegal : call.Legal client) :
    ∃ after, client.perform call =
        .ok ((layout.perform settings client.heap.toRegion.grants call).1, after) ∧
      after.Tracks settings region
        (layout.perform settings client.heap.toRegion.grants call).2 := by
  cases call with
  | allocate request => exact h.perform_allocate request
  | release address => exact h.perform_release hlegal
  | reallocate address request => exact h.perform_reallocate hlegal request
  | write address offset bytes => exact h.perform_write hlegal

/-- A legal call that was carried out or refused did so as the layout tells. -/
theorem perform_eq (h : client.Tracks settings region layout) {after : Client σ}
    (hlegal : call.Legal client) (hperform : client.perform call = .ok (answer, after)) :
    answer = (layout.perform settings client.heap.toRegion.grants call).1 ∧
      after.Tracks settings region
        (layout.perform settings client.heap.toRegion.grants call).2 := by
  obtain ⟨found, hfound, htracks⟩ := h.perform hlegal
  obtain ⟨rfl, rfl⟩ := Prod.mk.inj (Except.ok.inj (hperform.symm.trans hfound))
  exact ⟨rfl, htracks⟩

/-! ## Runs -/

variable {turns : List Turn} {last : Client σ}

/-- A run gives the answers that its replay on the layout gives, and leads to the layout that the
replay leads to. -/
theorem run (h : client.Tracks settings region layout) (hrun : Run client turns last) :
    (layout.replay settings turns).1 = turns.map (·.answer) ∧
      last.Tracks settings region (layout.replay settings turns).2 := by
  induction hrun generalizing layout with
  | done client => exact ⟨rfl, h⟩
  | called hlegal hperform _ ih =>
      obtain ⟨rfl, htracks⟩ := h.perform_eq hlegal hperform
      obtain ⟨hanswers, hlast⟩ := ih htracks
      exact ⟨congrArg _ hanswers, hlast⟩
  | retuned provider _ ih => exact ih (h.retune provider)

end Client.Tracks

namespace Client

variable [Provider σ ε] [LawfulProvider σ]

/-- A client that has just created its heap holds nothing. -/
theorem tracks_of_create (hcreate : Heap.create settings region = .ok () heap) :
    Tracks settings region ⟨heap, []⟩ (.initial heap.start settings.chunkSize) where
  sound := (Heap.fresh_of_create hcreate).sound
  settled := (Heap.fresh_of_create hcreate).settled
  settings_eq := (Heap.fresh_of_create hcreate).settings_eq
  start_eq := (Heap.fresh_of_create hcreate).start_eq
  byte_eq := (Heap.fresh_of_create hcreate).byte_eq
  held := List.Perm.refl []
  contents := by simp

/-- Every client that can be reached tracks the layout of its heap. -/
theorem Reachable.exists_tracks (hreach : Reachable settings region client) :
    ∃ layout, client.Tracks settings region layout := by
  obtain ⟨heap, turns, hcreate, hrun⟩ := hreach
  exact ⟨_, ((tracks_of_create hcreate).run hrun).2⟩

end Client

end BoundaryTag
