import BoundaryTag.Proofs.Heap.Choosing
import BoundaryTag.Proofs.Layout.Reuse

/-!
# Restoring the bytes of a heap

A settled layout leaves no choice for the bytes that a heap keeps for itself: two heaps with the
same layout agree on all of its bookkeeping (`Heap.Sound.byte_eq_of_bookkeeping`), since every word
of it is told by the layout and a word has only one spelling. So freeing a block and allocating it
again, which leads back to the same layout, restores every byte outside of the payload of the block
(`Heap.Sound.run_restore`), although the links and tags in between were others.
-/

namespace BoundaryTag

open HeapM

/-! ## Words and their bytes -/

/-- The number of four bytes fits in a word. -/
theorem littleEndian_lt {bytes : List UInt8} (hlength : bytes.length = 4) :
    littleEndian bytes < 0x1_0000_0000 := by
  obtain ⟨first, second, third, fourth, rfl⟩ := List.length_eq_four.1 hlength
  have hfirst := first.toNat_lt
  have hsecond := second.toNat_lt
  have hthird := third.toNat_lt
  have hfourth := fourth.toNat_lt
  simp only [littleEndian]
  omega

/-- Numbers of the same length that are equal have the same bytes. -/
theorem littleEndian_injective {bytes others : List UInt8} (hlength : bytes.length = others.length)
    (h : littleEndian bytes = littleEndian others) : bytes = others := by
  induction bytes generalizing others with
  | nil => exact (List.length_eq_zero_iff.1 hlength.symm).symm
  | cons byte bytes ih =>
      cases others with
      | nil => exact nomatch hlength
      | cons other others =>
          have hbyte := byte.toNat_lt
          have hother := other.toNat_lt
          rw [littleEndian, littleEndian] at h
          have hfirst : byte = other := UInt8.toNat_inj.1 (by omega)
          have hrest : bytes = others := ih (Nat.succ.inj hlength) (by omega)
          rw [hfirst, hrest]

/-- A word links to one block only. -/
theorem linkOfWord_injective {word other : UInt32} (h : linkOfWord word = linkOfWord other) :
    word = other := by
  unfold linkOfWord at h
  split at h <;> split at h
  next hword hother => rw [hword, hother]
  next => exact nomatch h
  next => exact nomatch h
  next => exact UInt32.toNat_inj.1 (Option.some.inj h)

namespace Memory

variable {memory other : Memory} {address inside : Nat}

/-- Two equal words have the same bytes. -/
theorem byte_of_word (h : memory.word address = other.word address) (hlow : address ≤ inside)
    (hhigh : inside < address + 4) : memory.byte inside = other.byte inside := by
  have hvalue : ∀ memory : Memory,
      (memory.word address).toNat = littleEndian (memory.slice address wordSize) := by
    intro memory
    exact UInt32.toNat_ofNat_of_lt (littleEndian_lt (length_slice memory address wordSize))
  have hslice : memory.slice address wordSize = other.slice address wordSize := by
    refine littleEndian_injective (by rw [length_slice, length_slice]) ?_
    rw [← hvalue, ← hvalue, h]
  obtain ⟨index, rfl⟩ : ∃ index, inside = address + index := ⟨inside - address, by omega⟩
  have hbyte := congrArg (·[index]?) hslice
  simp only [getElem?_slice, wordSize] at hbyte
  rw [if_pos (by omega), if_pos (by omega)] at hbyte
  exact Option.some.inj hbyte

/-- Two equal tags have the same bytes. -/
theorem byte_of_tag (h : memory.tag address = other.tag address) (hlow : address ≤ inside)
    (hhigh : inside < address + 4) : memory.byte inside = other.byte inside :=
  byte_of_word (congrArg Tag.bits h) hlow hhigh

/-- Two equal links have the same bytes. -/
theorem byte_of_link (h : memory.link address = other.link address) (hlow : address ≤ inside)
    (hhigh : inside < address + 4) : memory.byte inside = other.byte inside :=
  byte_of_word (linkOfWord_injective h) hlow hhigh

/-- A block that is marked in two memories has the same bytes in its tags. -/
theorem Marked.byte_eq {block : Block} (h : memory.Marked block) (hother : other.Marked block)
    (hin : block.InTags address) : other.byte address = memory.byte address := by
  rcases hin with ⟨hlow, hhigh⟩ | ⟨hlow, hhigh⟩
  · refine byte_of_tag (hother.header.trans h.header.symm) hlow ?_
    simp only [wordSize] at hhigh ⊢
    omega
  · refine byte_of_tag (hother.footer.trans h.footer.symm) hlow ?_
    simp only [overhead, wordSize] at hhigh ⊢
    omega

/-- A list that is linked in two memories has the same bytes in its links. -/
theorem Linked.byte_eq {previous : Option Nat} {listed : List Nat} {bp : Nat}
    (h : memory.Linked previous listed) (hother : other.Linked previous listed) (hbp : bp ∈ listed)
    (hlow : bp ≤ address) (hhigh : address < bp + 8) :
    other.byte address = memory.byte address := by
  obtain ⟨front, rest, rfl⟩ := List.append_of_mem hbp
  obtain ⟨hpredecessor, hsuccessor⟩ := h.middle
  obtain ⟨hpredecessor', hsuccessor'⟩ := hother.middle
  by_cases hfirst : address < bp + 4
  · exact byte_of_link (hpredecessor'.trans hpredecessor.symm) hlow hfirst
  · refine byte_of_link (hsuccessor'.trans hsuccessor.symm) ?_ ?_
    all_goals
      simp only [wordSize]
      omega

end Memory

namespace Heap

variable {σ : Type} {heap other : Heap σ} {layout : Layout} {block taken : Block}
  {size minBlock request address : Nat}

/-- Two heaps with the same settled layout agree on all bytes that they keep for themselves. -/
theorem Sound.byte_eq_of_bookkeeping (h : heap.Sound layout) (hother : other.Sound layout)
    (hsettled : layout.Settled) (hin : layout.Bookkeeping address) :
    other.memory.byte address = heap.memory.byte address := by
  rcases hin with ⟨block, hblock, htags | ⟨hfree, hlow, hhigh⟩⟩ | ⟨hlow, hhigh⟩
  · exact (h.marked block hblock).byte_eq (hother.marked block hblock) htags
  · have hlisted := hsettled.listed _ (mem_freeAddresses.2 ⟨block, hblock, hfree, rfl⟩)
    exact h.lists.linked.byte_eq hother.lists.linked hlisted hlow hhigh
  · refine Memory.byte_of_tag (hother.epilogue.trans h.epilogue.symm) hlow ?_
    simp only [wordSize]
    omega

/-- The free blocks of a settled heap can be taken. -/
theorem Sound.offers (h : heap.Sound layout) (hsettled : layout.Settled)
    (hblock : block ∈ layout.blocks) (hfree : block.allocated = false) :
    layout.Offers (heap.start + overhead) block where
  toOrderly := h.orderly hsettled
  mem := hblock
  free := hfree

/-- What a heap keeps for itself before a block is taken it still keeps for itself then, apart from
the payload of the block. -/
theorem Sound.bookkeeping_of_offers {first : Nat} (hoffers : layout.Offers first block)
    (h : heap.Sound (layout.occupy block.address size minBlock)) (hfits : size ≤ block.size)
    (htaken : taken ∈ (layout.occupy block.address size minBlock).held)
    (haddress : taken.address = block.address) (hin : layout.Bookkeeping address) :
    (layout.occupy block.address size minBlock).Bookkeeping address ∨ taken.InPayload address := by
  obtain ⟨before, after, hblocks⟩ := List.append_of_mem hoffers.mem
  have hmem := (Layout.mem_held.1 htaken).1
  have hbounds := h.bounds hmem
  -- the tags of the block are the outer tags of its parts, of which the taken one is the first
  have hparts : ∃ last ∈ (layout.occupy block.address size minBlock).blocks,
      last.stop = block.stop := by
    rw [Layout.occupy_of_split hblocks hoffers.tiles, Block.carve]
    split
    · exact ⟨block.rest size, by simp [Block.rest], Block.stop_rest hfits⟩
    · exact ⟨{ block with allocated := true }, by simp, rfl⟩
  have hothers : ∀ other ∈ before ++ after,
      other ∈ (layout.occupy block.address size minBlock).blocks := by
    intro other hother
    rw [Layout.occupy_of_split hblocks hoffers.tiles]
    simp only [List.mem_append] at hother ⊢
    tauto
  rcases hin with ⟨other, hother, hin⟩ | hepilogue
  · by_cases hsame : other = block
    · subst hsame
      rcases hin with (hheader | hfooter) | ⟨-, hlow, hhigh⟩
      · exact .inl (.inl ⟨taken, hmem, .inl (.inl (haddress ▸ hheader))⟩)
      · obtain ⟨last, hlast, hstop⟩ := hparts
        exact .inl (.inl ⟨last, hlast, .inl (.inr (hstop ▸ hfooter))⟩)
      · refine .inr ⟨haddress ▸ hlow, ?_⟩
        simp only [Block.stop, overhead, wordSize] at hbounds ⊢
        omega
    · rw [hblocks] at hother
      refine .inl (.inl ⟨other, hothers other ?_, hin⟩)
      simp only [List.mem_append, List.mem_cons, hsame, false_or] at hother ⊢
      exact hother
  · exact .inl (.inr hepilogue)

variable {ε : Type} [Provider σ ε]

/-- A block of a settled heap that is freed and allocated again by the same request is found at the
same place, without a request for more memory. Every byte outside of its payload is as it was. -/
theorem Sound.run_restore {first : Nat} (hoffers : layout.Offers first block)
    (h : heap.Sound (layout.occupy block.address size heap.settings.minBlock))
    (hsettled : (layout.occupy block.address size heap.settings.minBlock).Settled)
    (htaken : taken ∈ (layout.occupy block.address size heap.settings.minBlock).held)
    (haddress : taken.address = block.address) (hrequest : request ≠ 0)
    (hsize : blockSizeFor? request heap.settings.minBlock = some size)
    (hfits : size ≤ block.size) :
    ∃ freed again, (release block.address).run heap = .ok () freed ∧
      freed.firstFit size = .ok (some block.address) ∧
      (allocate request).run freed = .ok block.address again ∧
      again.Sound (layout.occupy block.address size heap.settings.minBlock) ∧
      freed.settings = heap.settings ∧ again.provider = heap.provider ∧
      ∀ address, ¬ taken.InPayload address →
        again.memory.byte address = heap.memory.byte address := by
  obtain ⟨hroom, hmin, haligned, -⟩ :=
    blockSizeFor?_spec h.settings_valid.minBlock_aligned hsize
  have hleast := h.settings_valid.smallest_le
  simp only [smallestBlock, overhead, wordSize] at hleast
  have hrelease := hoffers.release_occupy (show 0 < heap.settings.minBlock by omega)
    (show 0 < size by omega)
  obtain ⟨freed, hfree, hfreed, hfreedSettled, hfreeEdits⟩ := h.edits_release hsettled htaken
  rw [haddress] at hfree
  rw [haddress, hrelease] at hfreed hfreedSettled hfreeEdits
  have hfound : (layout.promote block.address).firstFit size = some block.address := by
    refine Layout.firstFit_promote ?_
    rwa [Layout.sizeAt_address hoffers.tiles hoffers.mem]
  have hplaced := hfreed.run_allocate_eq hrequest (hfreeEdits.settings_eq ▸ hsize)
  rw [hfound] at hplaced
  obtain ⟨again, -, hplace, hagain, -, -, -, -, hagainEdits, -⟩ :=
    hfreed.run_place hfreedSettled hoffers.mem hoffers.free hfits
      (hfreeEdits.settings_eq ▸ hmin) haligned
  rw [Layout.occupy_promote, hfreeEdits.settings_eq] at hagain hagainEdits
  refine ⟨freed, again, hfree, ?_, hplaced.trans hplace, hagain, hfreeEdits.settings_eq,
    hagainEdits.provider_eq.trans hfreeEdits.provider_eq, fun address hout => ?_⟩
  · rw [hfreed.firstFit_eq size, hfound]
  · by_cases hkept : (layout.occupy block.address size heap.settings.minBlock).Bookkeeping address
    · exact h.byte_eq_of_bookkeeping hagain hsettled hkept
    -- what is neither kept for the heap itself nor in the block is not touched at all
    · have hoffered : ¬ (layout.promote block.address).Bookkeeping address := by
        intro hin
        rcases Sound.bookkeeping_of_offers hoffers h hfits htaken haddress hin with hbook | hpayload
        · exact hkept hbook
        · exact hout hpayload
      calc again.memory.byte address
          = freed.memory.byte address :=
            hagainEdits.byte_eq address (not_or.2 ⟨hoffered, hkept⟩)
        _ = heap.memory.byte address :=
            hfreeEdits.byte_eq address (not_or.2 ⟨hkept, not_or.2 ⟨hout, hoffered⟩⟩)

/-- A request that is met takes a block that a settled layout offers: the layout of the heap, or the
one that it has after growing. -/
theorem Sound.exists_offers [LawfulProvider σ] {next : Layout} (h : heap.Sound layout)
    (hsettled : layout.Settled)
    (hallocate : layout.allocate heap.settings heap.toRegion.grants request = .ok (address, next)) :
    ∃ (source : Layout) (block : Block) (size : Nat),
      source.Offers (heap.start + overhead) block ∧ block.address = address ∧ request ≠ 0 ∧
      blockSizeFor? request heap.settings.minBlock = some size ∧
      size ≤ block.size ∧ next = source.occupy block.address size heap.settings.minBlock := by
  obtain ⟨source, found, block, size, -, hsource, hsourceSettled, hstart, hblock, hfree, rfl, hpos,
    hsize, hfits, hnext⟩ := h.exists_choice hsettled hallocate
  exact ⟨found, block, size, hstart ▸ hsource.offers hsourceSettled hblock hfree, rfl, hpos, hsize,
    hfits, hnext⟩

end Heap

end BoundaryTag
