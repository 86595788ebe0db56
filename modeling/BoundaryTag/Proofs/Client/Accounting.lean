import BoundaryTag.Proofs.Client.Outlook
import BoundaryTag.Proofs.Client.Refusals
import Mathlib.Algebra.Ring.Nat

/-!
# Where the bytes of a heap are

`Client.Accounted` compares the statistics of a heap with what its client holds and with its free
list, and asks that the two and the bytes in front make up the whole heap.
`Client.accounted_of_reachable` says that this is so after every run. It also says when the heap
grows: in exactly those calls that return a block although no listed block was large enough
(`Call.Outgrows`), and by how much.
-/

namespace BoundaryTag

variable {σ ε : Type} {settings : Settings} {region : Region σ} {client : Client σ}
  {layout next : Layout} {granted : Nat → Bool} {request : Nat} {call : Call} {answer : Answer}

/-- The statistics tell how many blocks the client holds and how large they are together, and the
same of the free list. Every byte of the heap is in one of these blocks, in the epilogue, in the
prologue or in front of it. -/
structure Client.Accounted (client : Client σ) (usage : Usage) : Prop where
  heapSize_eq : usage.heapSize = client.heap.stop
  allocatedBlocks_eq : usage.allocatedBlocks = client.live.length
  allocatedSize_eq : ∃ sizes, client.live.mapM client.heap.blockSize = .ok sizes ∧
    usage.allocatedSize = sizes.sum
  freeBlocks_eq : usage.freeBlocks = client.heap.free.count
  freeSize_eq : ∃ listed sizes, client.heap.freeBlocks = .ok listed ∧
    listed.length = client.heap.free.count ∧ listed.mapM client.heap.blockSize = .ok sizes ∧
    usage.freeSize = sizes.sum
  total_eq : usage.allocatedSize + usage.freeSize + client.heap.start + overhead = usage.heapSize

/-- The call returned a block, for which one of this size was needed, and all listed blocks were
smaller. -/
structure Call.Outgrows (call : Call) (heap : Heap σ) (answer : Answer) (size : Nat) : Prop where
  returned : ∃ address, answer = .block address
  needed : blockSizeFor? call.request heap.settings.minBlock = some size
  smaller : heap.AllSmaller size

/-! ## The bytes of a layout -/

/-- The sizes at the addresses of some blocks add up to the sizes of these blocks. -/
theorem Tiles.sum_sizeAt {first stop : Nat} (h : Tiles first layout.blocks stop)
    {listed : List Block} (hlisted : ∀ block ∈ listed, block ∈ layout.blocks) :
    ((listed.map (·.address)).map layout.sizeAt).sum = Block.totalSize listed := by
  induction listed with
  | nil => rfl
  | cons block listed ih =>
      rw [List.forall_mem_cons] at hlisted
      rw [List.map_cons, List.map_cons, List.sum_cons, Layout.sizeAt_address h hlisted.1,
        ih hlisted.2]
      rfl

/-- The statistics of a heap are those of its layout, which is made of the blocks that the client
holds and of the listed ones. -/
theorem Client.Tracks.accounted (h : client.Tracks settings region layout) :
    client.Accounted (.ofBlocks client.heap.stop layout.blocks) := by
  have horder := (h.sound.intact h.settled).order_perm
  have hcount : client.heap.free.count = layout.order.length := h.sound.lists.count_eq
  have hheld : ∀ bp ∈ client.live, client.heap.blockSize bp = .ok (layout.sizeAt bp) := by
    intro bp hbp
    obtain ⟨block, hblock, rfl⟩ := h.exists_held hbp
    have hmem := (Layout.mem_held.1 hblock).1
    rw [h.sound.blockSize_eq hmem, Layout.sizeAt_address h.sound.tiles hmem]
  constructor
  case heapSize_eq => rfl
  case allocatedBlocks_eq =>
    rw [← h.held.length_eq, Layout.allocated, List.length_map]
    rfl
  case allocatedSize_eq =>
    refine ⟨_, Heap.mapM_eq_ok hheld, ?_⟩
    rw [← (h.held.map layout.sizeAt).sum_nat]
    exact (h.sound.tiles.sum_sizeAt fun _ => List.mem_of_mem_filter).symm
  case freeBlocks_eq =>
    rw [hcount, horder.length_eq, freeAddresses, List.length_map]
    rfl
  case freeSize_eq =>
    refine ⟨_, _, h.sound.freeBlocks_eq, hcount.symm,
      Heap.mapM_eq_ok fun _ => h.sound.blockSize_listed, ?_⟩
    rw [(horder.map layout.sizeAt).sum_nat]
    exact (h.sound.tiles.sum_sizeAt fun _ => List.mem_of_mem_filter).symm
  case total_eq =>
    have htotal := h.sound.tiles.totalSize_eq
    have hstop := h.sound.stop_eq
    rw [Usage.ofBlocks_sum]
    show _ = client.heap.stop
    omega

/-! ## Growth -/

namespace Layout

/-- Where the heap ends once a request is met: where it did before if a listed block is large
enough, and otherwise by the size that is needed or by a chunk further up, whichever is more. -/
def EndsAt (layout : Layout) (settings : Settings) (request stop : Nat) : Prop :=
  ∃ size, blockSizeFor? request settings.minBlock = some size ∧
    stop =
      if layout.firstFit size = none then layout.stop + max size settings.chunkSize
      else layout.stop

theorem endsAt_of_allocate {address : Nat}
    (h : layout.allocate settings granted request = .ok (address, next)) :
    layout.EndsAt settings request next.stop := by
  obtain ⟨size, source, -, hsize, rfl, ⟨hfound, rfl⟩ | ⟨hnone, -, -, hexpand⟩⟩ :=
    exists_of_allocate h
  · refine ⟨size, hsize, ?_⟩
    rw [if_neg (by simp [hfound])]
    rfl
  · refine ⟨size, hsize, ?_⟩
    rw [if_pos hnone]
    exact (congrArg (fun grown => grown.2.stop) hexpand).symm

/-- Freeing the old block does not move the end. -/
theorem endsAt_of_reallocate {address target : Nat}
    (h : layout.reallocate settings granted address request = .ok (target, next)) :
    layout.EndsAt settings request next.stop := by
  rw [reallocate] at h
  cases hallocate : layout.allocate settings granted request with
  | error reason =>
      rw [hallocate] at h
      cases h
  | ok found =>
      obtain ⟨found, placed⟩ := found
      rw [hallocate] at h
      obtain ⟨-, rfl⟩ := Prod.mk.inj (Except.ok.inj h)
      have hends := endsAt_of_allocate hallocate
      exact hends

theorem outcome_cases {result : Except Refusal (Nat × Layout)}
    (h : layout.outcome result = (answer, next)) :
    (∃ address, answer = .block address ∧ result = .ok (address, next)) ∨
      (∀ address, answer ≠ .block address) ∧ next.stop = layout.stop := by
  cases result with
  | error reason =>
      obtain ⟨rfl, rfl⟩ := Prod.mk.inj h
      exact .inr ⟨nofun, rfl⟩
  | ok found =>
      obtain ⟨rfl, rfl⟩ := Prod.mk.inj h
      exact .inl ⟨_, rfl, rfl⟩

/-- Only a call that returns a block can move the end of the heap. -/
theorem endsAt_perform (h : layout.perform settings granted call = (answer, next)) :
    (∃ address, answer = .block address ∧ layout.EndsAt settings call.request next.stop) ∨
      (∀ address, answer ≠ .block address) ∧ next.stop = layout.stop := by
  cases call with
  | release address =>
      obtain ⟨rfl, rfl⟩ := Prod.mk.inj h
      exact .inr ⟨nofun, rfl⟩
  | write address offset bytes =>
      obtain ⟨rfl, rfl⟩ := Prod.mk.inj h
      exact .inr ⟨nofun, rfl⟩
  | allocate request =>
      obtain ⟨address, hanswer, hallocate⟩ | hkept := outcome_cases h
      · exact .inl ⟨address, hanswer, endsAt_of_allocate hallocate⟩
      · exact .inr hkept
  | reallocate old request =>
      obtain ⟨address, hanswer, hreallocate⟩ | hkept := outcome_cases h
      · exact .inl ⟨address, hanswer, endsAt_of_reallocate hreallocate⟩
      · exact .inr hkept

end Layout

namespace Client

variable [Provider σ ε] [LawfulProvider σ]

/-- After every run, the statistics account for the blocks that the client holds, for the free list
and for every byte. A legal call makes the heap larger exactly if it returns a block and no listed
block was large enough, by the size that is needed or by a chunk, whichever is more. -/
theorem accounted_of_reachable (hreach : Reachable settings region client) :
    (∃ usage, client.heap.summary = .ok ({}, usage) ∧ client.Accounted usage) ∧
      ∀ call : Call, call.Legal client → ∃ answer after,
        client.perform call = .ok (answer, after) ∧
        (∀ size, call.Outgrows client.heap answer size →
          after.heap.stop = client.heap.stop + max size settings.chunkSize) ∧
        ((∀ size, ¬ call.Outgrows client.heap answer size) →
          after.heap.stop = client.heap.stop) := by
  obtain ⟨layout, htracks⟩ := hreach.exists_tracks
  have hintact := htracks.sound.intact htracks.settled
  have hsummary := hintact.toRepresents.summary_eq htracks.sound.stop_lt
    htracks.sound.wordSize_le_start fun block hblock => (hintact.aligned block hblock).1
  refine ⟨⟨_, hsummary, htracks.accounted⟩, fun call hlegal => ?_⟩
  obtain ⟨after, hperform, hafter⟩ := htracks.perform hlegal
  obtain ⟨⟨answer, next⟩, hlayout⟩ :
      ∃ outcome, layout.perform settings client.heap.toRegion.grants call = outcome := ⟨_, rfl⟩
  rw [hlayout] at hperform hafter
  refine ⟨answer, after, hperform, ?_⟩
  rw [← hafter.sound.stop_eq, ← htracks.sound.stop_eq]
  obtain ⟨address, hanswer, found, hfound, hstop⟩ | ⟨hanswer, hstop⟩ :=
    Layout.endsAt_perform hlayout
  · have hneeded := htracks.settings_eq.symm ▸ hfound
    refine ⟨fun size houtgrows => ?_, fun hnot => ?_⟩
    · obtain rfl : found = size := Option.some.inj (hneeded.symm.trans houtgrows.needed)
      rw [hstop, if_pos (htracks.sound.allSmaller_iff.1 houtgrows.smaller)]
    · rw [hstop, if_neg]
      intro hnone
      exact hnot found ⟨⟨address, hanswer⟩, hneeded, htracks.sound.allSmaller_iff.2 hnone⟩
  · refine ⟨fun size houtgrows => ?_, fun _ => hstop⟩
    obtain ⟨address, hreturned⟩ := houtgrows.returned
    exact absurd hreturned (hanswer address)

/-- A freed block is listed, but the block that is moved needs more than that and more than a chunk,
so the heap grows by what is needed. -/
theorem accounted_of_growing_session : ∃ client : Client Bounded,
    Reachable ⟨64, 32⟩ (Bounded.region 400) client ∧ client.live = [80, 48] ∧
      (∃ usage, client.heap.summary = .ok ({}, usage) ∧ client.Accounted usage) ∧
      (Call.reallocate 48 90).Legal client ∧ ∃ answer after,
        client.perform (.reallocate 48 90) = .ok (answer, after) ∧
        (∀ size, (Call.reallocate 48 90).Outgrows client.heap answer size →
          after.heap.stop = client.heap.stop + max size 64) ∧
        ((∀ size, ¬ (Call.reallocate 48 90).Outgrows client.heap answer size) →
          after.heap.stop = client.heap.stop) := by
  have hseen : (session ⟨64, 32⟩ (Bounded.region 400) [.allocate 10, .allocate 20,
      .allocate 30, .release 16, .allocate 1000]).map
      (fun (_, _, client) => client.live) = some [80, 48] := by
    decide +kernel
  obtain ⟨heap, turns, client, hcreate, hrun, hlive⟩ := exists_of_session hseen
  have hreach : Reachable ⟨64, 32⟩ (Bounded.region 400) client := ⟨heap, turns, hcreate, hrun⟩
  have hlegal : (Call.reallocate 48 90).Legal client := by
    show 48 ∈ client.live
    rw [show client.live = [80, 48] from hlive]
    decide
  obtain ⟨husage, hgrowth⟩ := accounted_of_reachable hreach
  exact ⟨client, hreach, hlive, husage, hlegal, hgrowth _ hlegal⟩

end Client

end BoundaryTag
