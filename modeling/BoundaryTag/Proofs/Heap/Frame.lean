import BoundaryTag.Proofs.Heap.Sound
import BoundaryTag.Proofs.Layout.Held

/-!
# What an operation leaves alone

`Heap.Spares` says that the payloads of some blocks and all bytes below the heap stay as they are.
No byte of an allocated block's payload is one that the heap uses for itself
(`Heap.Chained.not_bookkeeping`), so an action that changes bookkeeping bytes only spares the blocks
that are allocated before and after it (`Heap.Edits.spares`).
-/

namespace BoundaryTag

variable {σ : Type}

/-- Whether an address lies in the payload of a block. -/
def Block.InPayload (block : Block) (address : Nat) : Prop :=
  block.address ≤ address ∧ address < block.stop - overhead

namespace Heap

/-- An action that led from one heap to another, perhaps with more memory, changed no byte of the
payloads of these blocks, and none below the heap. -/
structure Spares (before after : Heap σ) (kept : List Block) : Prop where
  start_eq : after.start = before.start
  settings_eq : after.settings = before.settings
  size_le : before.memory.size ≤ after.memory.size
  byte_eq_below : ∀ address < before.start - wordSize,
    after.memory.byte address = before.memory.byte address
  byte_eq : ∀ block ∈ kept, ∀ address, block.InPayload address →
    after.memory.byte address = before.memory.byte address

namespace Spares

variable {first second third : Heap σ} {kept fewer : List Block}

theorem trans (h : first.Spares second kept) (h' : second.Spares third kept) :
    first.Spares third kept where
  start_eq := h'.start_eq.trans h.start_eq
  settings_eq := h'.settings_eq.trans h.settings_eq
  size_le := h.size_le.trans h'.size_le
  byte_eq_below address haddress :=
    (h'.byte_eq_below address (h.start_eq ▸ haddress)).trans (h.byte_eq_below address haddress)
  byte_eq block hblock address haddress :=
    (h'.byte_eq block hblock address haddress).trans (h.byte_eq block hblock address haddress)

theorem mono (h : first.Spares second kept) (hsubset : fewer ⊆ kept) : first.Spares second fewer :=
  { h with byte_eq := fun block hblock => h.byte_eq block (hsubset hblock) }

end Spares

variable {heap after : Heap σ} {layout next : Layout} {block : Block}

/-- Blocks are spared by edits that do not reach their payloads, nor below the heap. -/
theorem Edits.spares_of_avoids {changed : Nat → Prop} (hedits : heap.Edits after changed)
    (hbelow : ∀ address < heap.start - wordSize, ¬ changed address) {kept : List Block}
    (hkept : ∀ block ∈ kept, ∀ address, block.InPayload address → ¬ changed address) :
    heap.Spares after kept where
  start_eq := hedits.start_eq
  settings_eq := hedits.settings_eq
  size_le := Nat.le_of_eq hedits.size_eq.symm
  byte_eq_below address haddress := hedits.byte_eq address (hbelow address haddress)
  byte_eq block hblock address hin := hedits.byte_eq address (hkept block hblock address hin)

/-! ## Payloads and bookkeeping -/

namespace Chained

/-- The payload of an allocated block lies outside of all tags and links. -/
theorem not_bookkeeping (h : heap.Chained layout) (hblock : block ∈ layout.held) {address : Nat}
    (hpayload : block.InPayload address) : ¬ layout.Bookkeeping address := by
  obtain ⟨hblock, hallocated⟩ := Layout.mem_held.1 hblock
  have hbounds := h.bounds hblock
  have hstop : layout.stop = heap.memory.size := h.stop_eq
  obtain ⟨hlow, hhigh⟩ := hpayload
  simp only [overhead, wordSize] at hhigh
  rintro (⟨other, hother, hin⟩ | hend)
  · have hotherBounds := h.bounds hother
    by_cases heq : block = other
    · subst heq
      rcases hin with htags | ⟨hfree, -⟩
      · simp only [Block.InTags, overhead, wordSize] at htags
        omega
      · rw [hallocated] at hfree
        contradiction
    · have hdisjoint := h.tiles.disjoint hblock hother heq
      simp only [Block.InTags, Block.InLinks, Block.stop, overhead, wordSize] at *
      omega
  · simp only [wordSize] at hend
    omega

/-- Below the heap there are no tags and no links. -/
theorem not_bookkeeping_below (h : heap.Chained layout) {address : Nat}
    (hbelow : address < heap.start - wordSize) : ¬ layout.Bookkeeping address := by
  have hstart := h.start_le
  have hstop : layout.stop = heap.memory.size := h.stop_eq
  rintro (⟨other, hother, hin⟩ | hend)
  · have hbounds := h.bounds hother
    simp only [Block.InTags, Block.InLinks, Block.stop, overhead, wordSize] at *
    omega
  · simp only [wordSize] at hbelow hend
    omega

theorem payloadLength_eq (h : heap.Chained layout) (hblock : block ∈ layout.blocks) :
    heap.payloadLength block.address = .ok (block.size - overhead) := by
  have hbounds := h.bounds hblock
  have hstop : block.stop = block.address + block.size := rfl
  rw [payloadLength, footerOffset_of_marked (h.marked block hblock) (by omega) (by omega) (by omega)
    (by omega) (by omega) (by simp only [addressSpace]; omega), ok_bind,
    if_pos (by simp only [overhead, wordSize]; omega)]
  show Except.ok (block.stop - overhead - block.address) = _
  rw [hstop, Nat.sub_right_comm, Nat.add_sub_cancel_left]

theorem payload_eq (h : heap.Chained layout) (hblock : block ∈ layout.blocks) :
    heap.payload block.address =
      .ok (heap.memory.slice block.address (block.size - overhead)) := by
  rw [payload, h.payloadLength_eq hblock]
  rfl

end Chained

/-- Writing into the payload of an allocated block keeps the layout. -/
theorem Sound.congr_payload (h : heap.Sound layout) (hblock : block ∈ layout.held)
    (hedits : heap.Edits after block.InPayload) (hfree : after.free = heap.free) :
    after.Sound layout := by
  have hbounds := h.bounds (Layout.mem_held.1 hblock).1
  have hoff : ∀ address, layout.Bookkeeping address → ¬ block.InPayload address :=
    fun address hbook hpayload => h.not_bookkeeping hblock hpayload hbook
  have hchained : after.Chained layout := by
    refine h.toChained.congr hedits (fun address hin hpayload => ?_)
      (fun other hother address hin => hoff address (.inl ⟨other, hother, .inl hin⟩))
      fun address hlow hhigh => hoff address (.inr ⟨hlow, hhigh⟩)
    have hlow := hpayload.1
    simp only [Block.InTags, Block.stop, prologue, overhead, wordSize] at hin
    omega
  have hlinked : after.memory.Linked none layout.order := by
    refine h.lists.linked.congr fun bp hbp address hlow hhigh => ?_
    obtain ⟨other, hother, hotherFree, rfl⟩ := h.exists_block hbp
    exact hedits.byte_eq address
      (hoff address (.inl ⟨other, hother, .inr ⟨hotherFree, hlow, hhigh⟩⟩))
  exact { toChained := hchained
          lists := ⟨hlinked, hfree ▸ h.lists.head_eq, hfree ▸ h.lists.count_eq⟩
          order_nodup := h.order_nodup
          order_free := h.order_free }

/-- No byte below the heap is in the payload of a block. -/
theorem Chained.not_inPayload_below (h : heap.Chained layout) (hblock : block ∈ layout.blocks)
    {address : Nat} (hbelow : address < heap.start - wordSize) : ¬ block.InPayload address := by
  intro hpayload
  have hbounds := h.bounds hblock
  have hlow := hpayload.1
  omega

/-- Different blocks have no byte of their payloads in common. -/
theorem Chained.not_inPayload (h : heap.Chained layout) {other : Block}
    (hblock : block ∈ layout.blocks) (hother : other ∈ layout.blocks) (hne : block ≠ other)
    {address : Nat} (hin : other.InPayload address) : ¬ block.InPayload address := by
  intro hpayload
  have hdisjoint := h.tiles.disjoint hblock hother hne
  simp only [Block.InPayload] at hin hpayload
  omega

/-- Writing into the payload of an allocated block spares all others. -/
theorem Chained.spares_payload (h : heap.Chained layout) (hblock : block ∈ layout.held)
    (hedits : heap.Edits after block.InPayload) {kept : List Block} (hkept : kept ⊆ layout.held)
    (hnot : block ∉ kept) : heap.Spares after kept := by
  have hmem := (Layout.mem_held.1 hblock).1
  refine hedits.spares_of_avoids (fun address => h.not_inPayload_below hmem) ?_
  intro other hother address hin
  exact h.not_inPayload hmem (Layout.mem_held.1 (hkept hother)).1
    (fun heq => hnot (heq ▸ hother)) hin

/-- What changes bookkeeping bytes only spares the payloads of allocated blocks. -/
theorem Edits.spares (hedits : heap.Edits after fun address =>
      layout.Bookkeeping address ∨ next.Bookkeeping address) (h : heap.Chained layout)
    (hnext : after.Chained next) {kept : List Block} (hkept : kept ⊆ layout.held)
    (hkeptNext : kept ⊆ next.held) : heap.Spares after kept := by
  refine hedits.spares_of_avoids (fun address haddress => ?_) fun block hblock address hin => ?_
  · exact not_or.2 ⟨h.not_bookkeeping_below haddress,
      hnext.not_bookkeeping_below (hedits.start_eq ▸ haddress)⟩
  · exact not_or.2 ⟨h.not_bookkeeping (hkept hblock) hin,
      hnext.not_bookkeeping (hkeptNext hblock) hin⟩

/-- What a spared block starts with is the same before and after. -/
theorem Spares.slice_eq {kept : List Block} (h : heap.Spares after kept) (hblock : block ∈ kept)
    {length : Nat} (hlength : length + overhead ≤ block.size) :
    after.memory.slice block.address length = heap.memory.slice block.address length := by
  refine Memory.slice_congr fun address hlow hhigh => ?_
  refine h.byte_eq block hblock address ⟨hlow, ?_⟩
  simp only [Block.stop, overhead, wordSize] at hlength ⊢
  omega

/-- The payload of a spared block is the same before and after. -/
theorem Spares.payload_eq {kept : List Block} (hspares : heap.Spares after kept)
    (h : heap.Chained layout) (hnext : after.Chained next) (hblock : block ∈ kept)
    (hbefore : block ∈ layout.blocks) (hafter : block ∈ next.blocks) :
    after.payload block.address = heap.payload block.address := by
  have hbounds := h.bounds hbefore
  rw [h.payload_eq hbefore, hnext.payload_eq hafter,
    hspares.slice_eq hblock (by simp only [overhead, wordSize]; omega)]

end Heap

end BoundaryTag
