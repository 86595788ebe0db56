import BoundaryTag.Client.Script
import BoundaryTag.Client.Session
import BoundaryTag.Proofs.Client.Moving
import BoundaryTag.Proofs.Heap.Choosing
import BoundaryTag.Provider.Bounded

/-!
# What a request receives

`Client.Receives` says where the block lies that an answer names and how large it is: as large as
the least block that holds the request, or larger by less than a block, and then because a free
block of exactly this size was taken whole. `Client.receives_of_reachable` says it of every request
that is met, for a new block or for a move.

The least block of the settings is also the least block of a request, and both can come together:
`Client.bounded_of_reachable` says how much more than the request a block can be.
-/

namespace BoundaryTag

open HeapM

variable {σ ε : Type} {settings : Settings} {region : Region σ} {client next : Client σ}
  {layout placed last : Layout} {request address : Nat} {call : Call}

namespace Client

variable [Provider σ ε]

/-- A request that needed a block of `size` bytes received one of `received` bytes. -/
structure Receives (client next : Client σ) (request address size received : Nat) : Prop where
  least : IsLeast (blockSizes request client.heap.settings.minBlock) size
  address_aligned : address % alignment = 0
  start_le : next.heap.start + overhead ≤ address
  le_stop : address + received ≤ next.heap.stop
  blockSize_eq : next.heap.blockSize address = .ok received
  received_aligned : received % alignment = 0
  size_le : size ≤ received
  received_le : received + alignment ≤ size + client.heap.settings.minBlock
  payload : ∃ bytes, next.heap.payload address = .ok bytes ∧
    bytes.length = received - overhead ∧ request ≤ bytes.length
  /-- More than was needed is received only when nothing could be split off. -/
  whole : size < received → ∃ source placed, client.heap.Chooses size address source ∧
    (Heap.allocate request).run client.heap = .ok address placed ∧
      source.TakenWhole placed address received

/-- The block that an answer names is live. -/
theorem mem_live_of_block (hperform : client.perform call = .ok (.block address, next))
    (hrequest : (∃ request, call = .allocate request) ∨
      ∃ old request, call = .reallocate old request) : address ∈ next.live := by
  rw [live, holdings_of_perform hperform]
  rcases hrequest with ⟨request, rfl⟩ | ⟨old, request, rfl⟩
  · exact List.mem_cons_self
  · exact List.mem_cons_self

variable [LawfulProvider σ]

/-- A request receives what is granted of the block that its layout chooses, also when other blocks
are freed afterwards. -/
theorem Tracks.receives (h : client.Tracks settings region layout)
    (hallocate : layout.allocate client.heap.settings client.heap.toRegion.grants request =
      .ok (address, placed))
    (hnext : next.Tracks settings region last) (hheld : last.held ⊆ placed.held)
    (hlive : address ∈ next.live) :
    ∃ size received, client.Receives next request address size received := by
  obtain ⟨source, found, block, size, hchooses, hsource, hsettled, hstart, hblock, hfree, rfl, -,
    hsize, hfits, rfl⟩ := h.sound.exists_choice h.settled hallocate
  obtain ⟨after, -, hrun, hafter, -, -, -, -, hspares⟩ :=
    h.sound.run_allocate_of_ok h.settled hallocate
  have hvalid := h.sound.settings_valid
  have hsmallest := hvalid.smallest_le
  simp only [smallestBlock, overhead, wordSize] at hsmallest
  obtain ⟨hroom, -, haligned, -⟩ := blockSizeFor?_spec hvalid.minBlock_aligned hsize
  obtain ⟨hmod, hle, hlt⟩ := block.granted_bounds haligned (hsource.size_aligned block hblock) hfits
    (show 8 ≤ client.heap.settings.minBlock by omega) hvalid.minBlock_aligned
  -- the live block is the one that was granted, since no other one has its address
  obtain ⟨taken, htaken, haddress⟩ := hnext.exists_held hlive
  have hsame : taken = ⟨block.address, block.granted size client.heap.settings.minBlock, true⟩ :=
    hafter.tiles.eq_of_address (Layout.mem_held.1 (hheld htaken)).1
      (Layout.mem_held.1 (Layout.granted_mem_held hblock)).1 haddress
  have hgranted : taken.size = block.granted size client.heap.settings.minBlock :=
    congrArg Block.size hsame
  have hmem := (Layout.mem_held.1 htaken).1
  have hbounds := hnext.sound.bounds hmem
  rw [← hgranted] at hmod hle hlt
  refine ⟨size, taken.size, ?_⟩
  constructor
  case least => exact isLeast_of_blockSizeFor? hvalid.minBlock_aligned hsize
  case address_aligned => exact haddress ▸ hnext.sound.address_aligned hmem
  case start_le => exact haddress ▸ hbounds.1
  case le_stop => exact haddress ▸ hbounds.2.2.1
  case blockSize_eq => exact haddress ▸ hnext.sound.blockSize_eq hmem
  case received_aligned => exact hmod
  case size_le => exact hle
  case received_le => exact hlt
  case payload =>
    refine ⟨_, haddress ▸ hnext.sound.payload_eq hmem, Memory.length_slice _ _ _, ?_⟩
    rw [Memory.length_slice]
    simp only [overhead, wordSize]
    omega
  case whole =>
    intro hmore
    obtain ⟨hrest, hwhole⟩ := Block.granted_of_lt (hgranted ▸ hmore)
    rw [hgranted, hwhole]
    exact ⟨source, after, hchooses, hrun, hsource.takenWhole hsettled hafter
      (hspares.start_eq.trans hstart.symm) hblock hfree hrest⟩

/-- Every call that is answered with a block receives it. -/
theorem Tracks.exists_receives (h : client.Tracks settings region layout)
    (hlegal : call.Legal client) (hperform : client.perform call = .ok (.block address, next)) :
    ∃ size received, client.Receives next call.request address size received := by
  obtain ⟨hanswer, hnext⟩ := h.perform_eq hlegal hperform
  rw [← h.settings_eq] at hanswer hnext
  cases call with
  | allocate request =>
      have hallocate := Layout.eq_ok_of_outcome hanswer.symm
      exact (h.settings_eq ▸ h).receives hallocate hnext (List.Subset.refl _)
        (mem_live_of_block hperform (.inl ⟨request, rfl⟩))
  | reallocate old request =>
      have hreallocate := Layout.eq_ok_of_outcome hanswer.symm
      obtain ⟨placed, hallocate, hlast⟩ := Layout.reallocate_eq_ok.1 hreallocate
      refine (h.settings_eq ▸ h).receives hallocate hnext ?_
        (mem_live_of_block hperform (.inr ⟨old, request, rfl⟩))
      rw [Layout.perform, hlast]
      exact placed.held_release_subset old
  | release old => cases hanswer
  | write target offset bytes => cases hanswer

/-- Every request that is met, for a new block or for a move, receives an aligned block inside of
the heap, which holds what was asked for and exceeds the least block for it by less than a block. -/
theorem receives_of_reachable (hreach : Reachable settings region client)
    (hlegal : call.Legal client) (hperform : client.perform call = .ok (.block address, next)) :
    ∃ size received, client.Receives next call.request address size received := by
  obtain ⟨layout, htracks⟩ := hreach.exists_tracks
  exact htracks.exists_receives hlegal hperform

/-- A block of 56 bytes is taken whole for a move that needs 32 of them, as the other 24 cannot be a
block. -/
theorem receives_of_unsplit_session : ∃ client next : Client Bounded,
    Reachable ⟨128, 32⟩ (Bounded.region 400) client ∧ client.live = [72] ∧
      client.perform (.reallocate 72 20) = .ok (.block 16, next) ∧
      client.Receives next 20 16 32 56 := by
  have hseen : (session ⟨128, 32⟩ (Bounded.region 400) [.allocate 48, .allocate 24,
      .write 72 0 [1, 2, 3], .release 16]).map (fun outcome =>
        ((outcome.2.2.live, outcome.2.2.heap.settings),
          (outcome.2.2.perform (.reallocate 72 20)).toOption.map fun found =>
            (found.1, (found.2.heap.blockSize 16).toOption))) =
      some (([72], ⟨128, 32⟩), some (.block 16, some 56)) := by
    decide +kernel
  obtain ⟨client, next, hreach, hlook, hperform, hsize⟩ := exists_of_session_call
    (fun client => (client.live, client.heap.settings))
    (fun next => (next.heap.blockSize 16).toOption) hseen
  obtain ⟨hlive, hsettings⟩ := Prod.mk.inj hlook
  have hlegal : (Call.reallocate 72 20).Legal client := by
    show 72 ∈ client.live
    rw [hlive]
    decide
  obtain ⟨size, received, hreceives⟩ := receives_of_reachable hreach hlegal hperform
  obtain rfl : received = 56 :=
    Except.ok.inj (hreceives.blockSize_eq.symm.trans (eq_ok_of_toOption hsize))
  have hleast : IsLeast (blockSizes 20 client.heap.settings.minBlock) 32 := by
    rw [hsettings]
    exact isLeast_of_blockSizeFor? (by decide) (by decide)
  obtain rfl : size = 32 := hreceives.least.unique hleast
  exact ⟨client, next, hreach, hlive, hperform, hreceives⟩

/-! ## How much more than the request -/

/-- The block for a request is smaller than the least block on top of what the request needs, which
may itself be the least block. If that is at most 15 bytes more than the request with its tags, the
block has no more than these, seven bytes for the alignment and the least block. -/
theorem bounded_of_reachable (hreach : Reachable settings region client)
    (hperform : client.perform (.allocate request) = .ok (.block address, next)) :
    ∃ received, next.heap.blockSize address = .ok received ∧
      received + alignment ≤ max (request + overhead + 7) settings.minBlock + settings.minBlock ∧
      (settings.minBlock ≤ request + overhead + 15 →
        received ≤ request + overhead + 7 + settings.minBlock) := by
  obtain ⟨layout, htracks⟩ := hreach.exists_tracks
  have hlegal : (Call.allocate request).Legal client := trivial
  obtain ⟨size, received, hreceives⟩ := htracks.exists_receives hlegal hperform
  have haligned := htracks.sound.settings_valid.minBlock_aligned
  rw [htracks.settings_eq] at haligned
  -- the request with its tags, rounded up, is large enough for it
  let padded := (request + overhead + 7) / alignment * alignment
  have hroom : max padded settings.minBlock ∈ blockSizes request settings.minBlock := by
    refine ⟨?_, ?_, Nat.le_max_right ..⟩
    all_goals
      simp only [padded, alignment, overhead, wordSize] at *
      omega
  have hleast := hreceives.least
  have hlarge := hreceives.received_le
  rw [htracks.settings_eq] at hleast hlarge
  have hsize : size ≤ max padded settings.minBlock := hleast.2 hroom
  have hpadded : padded ≤ request + overhead + 7 := Nat.div_mul_le_self ..
  simp only [alignment] at hlarge ⊢
  exact ⟨received, hreceives.blockSize_eq, by omega, by omega⟩

/-- The block of 56 bytes that is taken whole for 20 bytes stays below the bound that is kept when
the least block is small. -/
theorem bounded_of_unsplit_session : ∃ (client next : Client Bounded) (received : Nat),
    Reachable ⟨128, 32⟩ (Bounded.region 400) client ∧
      client.perform (.allocate 20) = .ok (.block 16, next) ∧
      next.heap.blockSize 16 = .ok received ∧ received = 56 ∧
      received + alignment ≤ max (20 + overhead + 7) 32 + 32 ∧
      received ≤ 20 + overhead + 7 + 32 := by
  have hseen : (session ⟨128, 32⟩ (Bounded.region 400) [.allocate 48, .allocate 24,
      .release 16]).map (fun outcome =>
        (outcome.2.2.live, (outcome.2.2.perform (.allocate 20)).toOption.map fun found =>
          (found.1, (found.2.heap.blockSize 16).toOption))) =
      some ([72], some (.block 16, some 56)) := by
    decide +kernel
  obtain ⟨client, next, hreach, -, hperform, hsize⟩ := exists_of_session_call live
    (fun next => (next.heap.blockSize 16).toOption) hseen
  obtain ⟨received, hreceived, hlarge, hsmall⟩ := bounded_of_reachable hreach hperform
  have heq : received = 56 := Except.ok.inj (hreceived.symm.trans (eq_ok_of_toOption hsize))
  exact ⟨client, next, received, hreach, hperform, hreceived, heq, hlarge, hsmall (by decide)⟩

/-- The bound is attained: on every new heap whose first block has eight bytes less than two least
blocks, each request that fits in a least block receives all of it. -/
theorem attained_of_create {heap : Heap σ} (hcreate : Heap.create settings region = .ok () heap)
    (hchunk : settings.chunkSize + 8 = 2 * settings.minBlock) (hpos : 0 < request)
    (hfits : request + overhead ≤ settings.minBlock) :
    ∃ next, perform ⟨heap, []⟩ (.allocate request) = .ok (.block (heap.start + overhead), next) ∧
      next.heap.blockSize (heap.start + overhead) = .ok settings.chunkSize := by
  have htracks := tracks_of_create hcreate
  have hvalid : settings.Valid := htracks.settings_eq ▸ htracks.sound.settings_valid
  have hlargest : settings.minBlock ≤ largestBlock := by
    have hmin := hvalid.minBlock_le
    have hchunkAligned := hvalid.chunkSize_aligned
    have hlimit := hvalid.chunkSize_le
    simp only [alignment, heapLimit, largestBlock] at *
    omega
  have hsize := blockSizeFor?_of_le hvalid.minBlock_aligned hlargest hfits
  have hfound : (Layout.initial heap.start settings.chunkSize).firstFit settings.minBlock =
      some (heap.start + overhead) := by
    simp [Layout.firstFit, Layout.initial, Layout.sizeAt, Layout.block?, hvalid.minBlock_le]
  have hallocate : (Layout.initial heap.start settings.chunkSize).allocate settings
      heap.toRegion.grants request = .ok (heap.start + overhead,
        (Layout.initial heap.start settings.chunkSize).occupy (heap.start + overhead)
          settings.minBlock settings.minBlock) := by
    rw [Layout.allocate, if_neg (Nat.ne_of_gt hpos), hsize]
    dsimp only
    rw [hfound]
  obtain ⟨next, hperform, hnext⟩ := htracks.perform_allocate request
  rw [Layout.perform, hallocate] at hperform hnext
  have hblock : (⟨heap.start + overhead, settings.chunkSize, false⟩ : Block) ∈
      (Layout.initial heap.start settings.chunkSize).blocks := List.mem_cons_self
  have hgranted : Block.granted settings.minBlock settings.minBlock
      ⟨heap.start + overhead, settings.chunkSize, false⟩ = settings.chunkSize :=
    if_neg (show ¬ settings.chunkSize - settings.minBlock ≥ settings.minBlock by omega)
  have hheld : ⟨heap.start + overhead, Block.granted settings.minBlock settings.minBlock _, true⟩ ∈
      ((Layout.initial heap.start settings.chunkSize).occupy (heap.start + overhead)
        settings.minBlock settings.minBlock).held := Layout.granted_mem_held hblock
  rw [hgranted] at hheld
  exact ⟨next, hperform, hnext.sound.blockSize_eq (Layout.mem_held.1 hheld).1⟩

/-- A request for one byte on a new heap receives 56 bytes, although the request with its tags,
seven bytes for the alignment and the least block make 48. -/
theorem exists_larger_block : ∃ client next : Client Bounded,
    Reachable ⟨56, 32⟩ (Bounded.region 400) client ∧
      client.perform (.allocate 1) = .ok (.block 16, next) ∧
      next.heap.blockSize 16 = .ok 56 ∧ ¬ 56 ≤ 1 + overhead + 7 + 32 := by
  have hseen : (session ⟨56, 32⟩ (Bounded.region 400) []).map (fun outcome =>
      (outcome.2.2.live, (outcome.2.2.perform (.allocate 1)).toOption.map fun found =>
        (found.1, (found.2.heap.blockSize 16).toOption))) =
      some ([], some (.block 16, some 56)) := by
    decide +kernel
  obtain ⟨client, next, hreach, -, hperform, hsize⟩ := exists_of_session_call live
    (fun next => (next.heap.blockSize 16).toOption) hseen
  exact ⟨client, next, hreach, hperform, eq_ok_of_toOption hsize, by decide⟩

end Client

end BoundaryTag
