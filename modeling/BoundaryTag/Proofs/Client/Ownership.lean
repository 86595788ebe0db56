import BoundaryTag.Client.Session
import BoundaryTag.Proofs.Client.Steps
import BoundaryTag.Proofs.Heap.Walks
import BoundaryTag.Provider.Bounded

/-!
# Whose bytes are whose

A held block is its holder's alone: `Client.Exclusive` says so of one state of a client, in terms of
what the headers and links of its heap say, and `Client.exclusive_of_reachable` of every state and
of all states that follow. Until a block is given up, only the writes to it change its bytes
(`Client.Tracks.foldl_after`).
-/

namespace BoundaryTag

variable {σ ε : Type} {settings : Settings} {region : Region σ} {client next later : Client σ}
  {layout : Layout} {heap : Heap σ} {block : Block} {address bp : Nat} {holding : Holding}
  {turns : List Turn}

/-! ## One state -/

namespace Heap

/-- Whether an address lies in the payload of a block, according to its header. -/
def InPayload (heap : Heap σ) (bp address : Nat) : Prop :=
  ∃ size, heap.blockSize bp = .ok size ∧ bp ≤ address ∧ address + overhead < bp + size

/-- Whether an address lies in the header or in the footer of a block, according to its header. -/
def InTags (heap : Heap σ) (bp address : Nat) : Prop :=
  ∃ size, heap.blockSize bp = .ok size ∧
    (bp ≤ address + wordSize ∧ address < bp ∨
      bp + size ≤ address + overhead ∧ address + wordSize < bp + size)

/-- Whether an address lies in a word that the heap keeps for itself: in a tag of a block, the
prologue included, in the epilogue, or in a link of a listed block. -/
def OwnWord (heap : Heap σ) (address : Nat) : Prop :=
  (∃ bps, heap.blocks = .ok bps ∧ ∃ bp ∈ bps, heap.InTags bp address) ∨
    (heap.stop ≤ address + wordSize ∧ address < heap.stop) ∨
    ∃ order, heap.freeBlocks = .ok order ∧ ∃ bp ∈ order, bp ≤ address ∧ address < bp + 2 * wordSize

namespace Chained

theorem inPayload_iff (h : heap.Chained layout) (hblock : block ∈ layout.blocks) :
    heap.InPayload block.address address ↔ block.InPayload address := by
  have hbounds := h.bounds hblock
  simp only [InPayload, Block.InPayload, h.blockSize_eq hblock, Block.stop, overhead, wordSize] at *
  constructor
  · rintro ⟨size, hsize, hlow, hhigh⟩
    obtain rfl := Except.ok.inj hsize
    omega
  · rintro ⟨hlow, hhigh⟩
    exact ⟨block.size, rfl, hlow, by omega⟩

/-- What a heap keeps for itself is bookkeeping of its layout, or a tag of its prologue. -/
theorem bookkeeping_of_inTags (h : heap.Chained layout) (hbp : bp ∈ heap.start ::
      layout.blocks.map (·.address)) (hin : heap.InTags bp address) :
    layout.Bookkeeping address ∨ address < heap.start + 4 := by
  obtain ⟨size, hsize, hin⟩ := hin
  cases List.mem_cons.1 hbp with
  | inl heq =>
      obtain rfl := heq
      rw [blockSize_of_header h.header_start, Tag.size_ofSize (by simp) (by simp)] at hsize
      obtain rfl := Except.ok.inj hsize
      simp only [overhead, wordSize] at hin
      omega
  | inr hmem =>
      obtain ⟨block, hblock, rfl⟩ := List.mem_map.1 hmem
      rw [h.blockSize_eq hblock] at hsize
      obtain rfl := Except.ok.inj hsize
      refine .inl (.inl ⟨block, hblock, .inl ?_⟩)
      simp only [Block.InTags, Block.stop, overhead, wordSize] at *
      omega

end Chained

/-- No byte of the payload of an allocated block is in a word that the heap keeps for itself. -/
theorem Sound.not_ownWord (h : heap.Sound layout) (hblock : block ∈ layout.held)
    (hpayload : block.InPayload address) : ¬ heap.OwnWord address := by
  have hbook := h.not_bookkeeping hblock hpayload
  have hbounds := h.bounds (Layout.mem_held.1 hblock).1
  have hlow := hpayload.1
  rintro (⟨bps, hbps, bp, hbp, hin⟩ | hend | ⟨order, horder, bp, hbp, hin⟩)
  · rw [h.blocks_eq] at hbps
    obtain rfl := Except.ok.inj hbps
    cases h.bookkeeping_of_inTags hbp hin with
    | inl hbookkeeping => exact hbook hbookkeeping
    | inr hprologue => omega
  · refine hbook (.inr ?_)
    rw [h.stop_eq]
    simp only [wordSize] at *
    omega
  · rw [h.freeBlocks_eq] at horder
    obtain rfl := Except.ok.inj horder
    obtain ⟨other, hother, hfree, rfl⟩ := h.exists_block hbp
    refine hbook (.inl ⟨other, hother, .inr ⟨hfree, hin.1, ?_⟩⟩)
    simp only [wordSize] at hin
    omega

end Heap

namespace Client

/-- The held blocks are the allocated ones, none of them shares a byte of its payload with another
one or with the heap, and each holds what its holder expects. -/
structure Exclusive (client : Client σ) : Prop where
  nodup : client.live.Nodup
  mem_live : ∃ bps, client.heap.blocks = .ok (client.heap.start :: bps) ∧
    ∀ bp, bp ∈ client.live ↔ bp ∈ bps ∧ client.heap.isAllocated bp = .ok true
  listed : ∃ order, client.heap.freeBlocks = .ok order
  disjoint : ∀ first ∈ client.live, ∀ second ∈ client.live, first ≠ second →
    ∀ address, client.heap.InPayload first address → ¬ client.heap.InPayload second address
  apart : ∀ bp ∈ client.live, ∀ address, client.heap.InPayload bp address →
    ¬ client.heap.OwnWord address
  contents : ∀ holding ∈ client.holdings,
    client.heap.blockSize holding.address = .ok (holding.contents.length + overhead) ∧
      client.heap.payload holding.address = .ok holding.contents

namespace Tracks

theorem mem_live (h : client.Tracks settings region layout) :
    bp ∈ client.live ↔
      bp ∈ layout.blocks.map (·.address) ∧ client.heap.isAllocated bp = .ok true := by
  rw [← h.held.mem_iff]
  constructor
  · intro hbp
    obtain ⟨block, hblock, rfl⟩ := List.mem_map.1 hbp
    obtain ⟨hblock, hallocated⟩ := Layout.mem_held.1 hblock
    exact ⟨List.mem_map_of_mem hblock, hallocated ▸ h.sound.isAllocated_eq hblock⟩
  · rintro ⟨hbp, hallocated⟩
    obtain ⟨block, hblock, rfl⟩ := List.mem_map.1 hbp
    rw [h.sound.isAllocated_eq hblock] at hallocated
    exact List.mem_map_of_mem (Layout.mem_held.2 ⟨hblock, Except.ok.inj hallocated⟩)

theorem blockSize_eq (h : client.Tracks settings region layout)
    (hholding : holding ∈ client.holdings) :
    client.heap.blockSize holding.address = .ok (holding.contents.length + overhead) := by
  obtain ⟨block, hblock, haddress⟩ := h.exists_held (List.mem_map_of_mem hholding)
  have hblock := (Layout.mem_held.1 hblock).1
  have hbounds := h.sound.bounds hblock
  have hcontents := h.contents holding hholding
  rw [← haddress, h.sound.payload_eq hblock] at hcontents
  rw [← haddress, h.sound.blockSize_eq hblock, ← Except.ok.inj hcontents, Memory.length_slice]
  simp only [overhead, wordSize]
  congr 1
  omega

/-- A client that tracks its heap has its blocks to itself. -/
theorem exclusive (h : client.Tracks settings region layout) : client.Exclusive where
  nodup := h.nodup_live
  mem_live := ⟨_, h.sound.blocks_eq, fun _ => h.mem_live⟩
  listed := ⟨_, h.sound.freeBlocks_eq⟩
  disjoint first hfirst second hsecond hne address hin hin' := by
    obtain ⟨block, hblock, rfl⟩ := h.exists_held hfirst
    obtain ⟨other, hother, rfl⟩ := h.exists_held hsecond
    have hblock := (Layout.mem_held.1 hblock).1
    have hother := (Layout.mem_held.1 hother).1
    rw [h.sound.inPayload_iff hblock] at hin
    rw [h.sound.inPayload_iff hother] at hin'
    have hdisjoint := h.sound.tiles.disjoint hblock hother fun heq => hne (heq ▸ rfl)
    simp only [Block.InPayload] at hin hin'
    omega
  apart bp hbp address hin := by
    obtain ⟨block, hblock, rfl⟩ := h.exists_held hbp
    rw [h.sound.inPayload_iff (Layout.mem_held.1 hblock).1] at hin
    exact h.sound.not_ownWord hblock hin
  contents holding hholding := ⟨h.blockSize_eq hholding, h.contents holding hholding⟩

end Tracks

end Client

/-! ## All states that follow -/

namespace Turn

/-- Whether the block at this address was given up in this turn: freed, or moved. -/
def givesUp (turn : Turn) (address : Nat) : Bool :=
  match turn.call, turn.answer with
  | .release old, .done | .reallocate old _, .block _ => old == address
  | _, _ => false

end Turn

namespace Holding

/-- What becomes of a holding in a turn that does not give it up. -/
def after (holding : Holding) (turn : Turn) : Holding :=
  match turn.call, turn.answer with
  | .write target offset bytes, .done =>
      if holding.address = target then holding.write offset bytes else holding
  | _, _ => holding

/-- Writing inside of a block does not change its length. -/
theorem length_write {offset : Nat} {bytes : List UInt8}
    (h : offset + bytes.length ≤ holding.contents.length) :
    (holding.write offset bytes).contents.length = holding.contents.length := by
  simp only [write, List.length_append, List.length_take, List.length_drop]
  omega

end Holding

namespace Client

variable [Provider σ ε] {call : Call} {answer : Answer} {granted : Nat → Bool}

/-- The record that a call leaves is the one before it, updated by the answer. -/
theorem holdings_of_perform (h : client.perform call = .ok (answer, next)) :
    next.holdings = client.update next.heap call answer := by
  rw [perform] at h
  split at h
  · obtain ⟨rfl, rfl⟩ := Prod.mk.inj (Except.ok.inj h)
    rfl
  · obtain ⟨rfl, rfl⟩ := Prod.mk.inj (Except.ok.inj h)
    cases call <;> rfl
  · cases h

/-- A block that is not given up in a turn is still held after it. -/
theorem after_mem_holdings (h : client.perform call = .ok (answer, next))
    (hholding : holding ∈ client.holdings)
    (hkept : Turn.givesUp ⟨call, granted, answer⟩ holding.address = false) :
    holding.after ⟨call, granted, answer⟩ ∈ next.holdings := by
  rw [holdings_of_perform h]
  have hwithout : ∀ old, (old == holding.address) = false → holding ∈ client.without old :=
    fun old hne => List.mem_filter.2 ⟨hholding, by simpa using (beq_eq_false_iff_ne.1 hne).symm⟩
  -- calls and answers of different kinds do not go together, and change no record
  cases call with
  | allocate request =>
      cases answer with
      | block bp => exact List.mem_cons_of_mem _ hholding
      | done => exact hholding
      | refused reason => exact hholding
  | release old =>
      cases answer with
      | block bp => exact hholding
      | done => exact hwithout old hkept
      | refused reason => exact hholding
  | reallocate old request =>
      cases answer with
      | block bp => exact List.mem_cons_of_mem _ (hwithout old hkept)
      | done => exact hholding
      | refused reason => exact hholding
  | write target offset bytes =>
      cases answer with
      | block bp => exact hholding
      | done => exact List.mem_map_of_mem hholding
      | refused reason => exact hholding

/-- A turn changes neither the address nor the length of a block. -/
theorem Tracks.length_after (h : client.Tracks settings region layout)
    (hholding : holding ∈ client.holdings) (hlegal : call.Legal client) :
    (holding.after ⟨call, granted, answer⟩).address = holding.address ∧
      (holding.after ⟨call, granted, answer⟩).contents.length = holding.contents.length := by
  rw [Holding.after]
  split
  next target offset bytes hcall hanswer =>
    obtain rfl : call = .write target offset bytes := hcall
    obtain ⟨other, hother, hsame, hrange⟩ := hlegal
    split
    next heq =>
      have hcontents := h.contents other hother
      rw [hsame, ← heq, h.contents holding hholding] at hcontents
      rw [← Except.ok.inj hcontents] at hrange
      exact ⟨rfl, Holding.length_write hrange⟩
    next => exact ⟨rfl, rfl⟩
  next => exact ⟨rfl, rfl⟩

variable [LawfulProvider σ]

/-- A block that is not given up in a run is still held after it, and all that happens to it is that
it is written to. -/
theorem Tracks.foldl_after (h : client.Tracks settings region layout)
    (hrun : Run client turns later) (hholding : holding ∈ client.holdings)
    (hkept : ∀ turn ∈ turns, turn.givesUp holding.address = false) :
    turns.foldl Holding.after holding ∈ later.holdings ∧
      (turns.foldl Holding.after holding).address = holding.address ∧
        (turns.foldl Holding.after holding).contents.length = holding.contents.length := by
  -- the record of the block goes along the run, so the length that it has to keep goes along, too
  induction hrun generalizing layout holding with
  | done client => exact ⟨hholding, rfl, rfl⟩
  | called hlegal hperform _ ih =>
      rw [List.forall_mem_cons] at hkept
      obtain ⟨rfl, htracks⟩ := h.perform_eq hlegal hperform
      obtain ⟨haddress, hlength⟩ := h.length_after hholding hlegal
      have hnext := after_mem_holdings hperform hholding hkept.1
      obtain ⟨hmem, hlastAddress, hlastLength⟩ := ih htracks hnext (by rw [haddress]; exact hkept.2)
      exact ⟨hmem, hlastAddress.trans haddress, hlastLength.trans hlength⟩
  | retuned provider _ ih => exact ih (h.retune provider) hholding hkept

/-- In every state, the held blocks belong to their holder alone and the bytes below the heap are as
they were before it was created; and whatever happens later, a block that is not given up keeps its
size, and its payload is changed by the writes to it only. -/
theorem exclusive_of_reachable (hreach : Reachable settings region client) :
    client.Exclusive ∧
      (∀ address < region.memory.size,
        client.heap.memory.byte address = region.memory.byte address) ∧
      ∀ turns later, Run client turns later → ∀ bp ∈ client.live,
        (∀ turn ∈ turns, turn.givesUp bp = false) →
          bp ∈ later.live ∧ later.heap.blockSize bp = client.heap.blockSize bp ∧
            ∃ bytes, client.heap.payload bp = .ok bytes ∧
              later.heap.payload bp = .ok (turns.foldl Holding.after ⟨bp, bytes⟩).contents := by
  obtain ⟨layout, htracks⟩ := hreach.exists_tracks
  refine ⟨htracks.exclusive, htracks.byte_eq, fun turns later hrun bp hbp hkept => ?_⟩
  obtain ⟨holding, hholding, rfl⟩ := List.mem_map.1 hbp
  obtain ⟨hmem, haddress, hlength⟩ := htracks.foldl_after hrun hholding hkept
  have hlater := (htracks.run hrun).2
  have hsize := hlater.blockSize_eq hmem
  have hpayload := hlater.contents _ hmem
  rw [haddress] at hsize hpayload
  rw [hlength, ← htracks.blockSize_eq hholding] at hsize
  exact ⟨haddress ▸ List.mem_map_of_mem hmem, hsize, holding.contents,
    htracks.contents holding hholding, hpayload⟩

/-- While its neighbours are freed and allocated again and the heap grows, a block keeps the bytes
that were written to it before, apart from those that are written now. -/
theorem exclusive_of_neighbourly_session : ∃ (client later : Client Bounded) (turns : List Turn),
    Reachable ⟨64, 32⟩ (Bounded.region 400) client ∧ Run client turns later ∧
      turns.map (·.answer) = [.done, .done, .block 80, .block 16, .refused .outOfMemory] ∧
      client.Exclusive ∧ 48 ∈ later.live ∧
      ∃ bytes, client.heap.payload 48 = .ok bytes ∧
        later.heap.payload 48 = .ok (turns.foldl Holding.after ⟨48, bytes⟩).contents := by
  have hseen : (session ⟨64, 32⟩ (Bounded.region 400) [.allocate 24, .allocate 24,
      .write 48 0 [1, 2, 3]]).map (fun (_, _, client) => (client.live,
        (client.play [.release 16, .write 48 2 [9], .allocate 100, .reallocate 80 10,
          .allocate 300]).map fun (turns, _) =>
            (turns.map (·.answer), turns.all (!·.givesUp 48)))) =
      some ([48, 16],
        some ([.done, .done, .block 80, .block 16, .refused .outOfMemory], true)) := by
    decide +kernel
  obtain ⟨heap, turns, client, hcreate, hrun, hview⟩ := exists_of_session hseen
  obtain ⟨hlive, hplay⟩ := Prod.mk.inj hview
  obtain ⟨⟨next, later⟩, hplay, hnext⟩ := Option.map_eq_some_iff.1 hplay
  obtain ⟨hanswers, hkept⟩ := Prod.mk.inj hnext
  have hreach : Reachable ⟨64, 32⟩ (Bounded.region 400) client := ⟨heap, turns, hcreate, hrun⟩
  have hlater := run_of_play hplay
  obtain ⟨hexclusive, -, hkeeps⟩ := exclusive_of_reachable hreach
  obtain ⟨hmem, -, hpayload⟩ := hkeeps next later hlater 48 (by rw [hlive]; decide)
    (by simpa using hkept)
  exact ⟨client, later, next, hreach, hlater, hanswers, hexclusive, hmem, hpayload⟩

end Client

end BoundaryTag
