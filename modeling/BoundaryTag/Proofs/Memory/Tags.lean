import BoundaryTag.Heap.Lemmas
import BoundaryTag.Heap.WellFormed

/-!
# The tags of a block in memory

`Memory.Marked` says that both tags of a block are bit for bit the tag of its size and flag, which
is how the operations write them and a little more than `Memory.Tagged` asks for. `Memory.mark`
writes the two tags, as `Heap.run_setTags_block` says, and `Memory.Marked.congr` is the frame rule:
a block stays marked as long as the eight bytes of its tags stay.
-/

namespace BoundaryTag

/-- Whether an address lies in the header or in the footer of a block. -/
def Block.InTags (block : Block) (address : Nat) : Prop :=
  (block.address - wordSize ≤ address ∧ address < block.address) ∨
    (block.stop - overhead ≤ address ∧ address < block.stop - wordSize)

namespace Memory

variable {memory other : Memory} {block : Block}

/-- The header and the footer of a block are the tag of its size and flag. -/
structure Marked (memory : Memory) (block : Block) : Prop where
  header : memory.tag (block.address - wordSize) = .ofSize block.size block.allocated
  footer : memory.tag (block.stop - overhead) = .ofSize block.size block.allocated

/-- Write the header and the footer of a block. -/
def mark (memory : Memory) (block : Block) : Memory :=
  (memory.setWord (block.address - wordSize) (Tag.ofSize block.size block.allocated).bits).setWord
    (block.stop - overhead) (Tag.ofSize block.size block.allocated).bits

/-- A tag depends on its four bytes only. -/
theorem tag_congr {address : Nat}
    (h : ∀ inside, address ≤ inside → inside < address + 4 →
      memory.byte inside = other.byte inside) : memory.tag address = other.tag address := by
  rw [tag, tag, word_congr h]

@[simp] theorem size_mark (memory : Memory) (block : Block) :
    (memory.mark block).size = memory.size := by
  simp [mark]

/-- Writing the tags of a block changes no other byte. -/
theorem byte_mark_of_outside {address : Nat} (hlow : 4 ≤ block.address) (hsize : 8 ≤ block.size)
    (h : ¬ block.InTags address) : (memory.mark block).byte address = memory.byte address := by
  simp only [Block.InTags, Block.stop, wordSize, overhead] at h
  rw [mark, byte_setWord_of_outside, byte_setWord_of_outside] <;>
    simp only [Block.stop, wordSize, overhead] <;> omega

/-- The header is read back, also that of an empty block, which has the footer before it. -/
theorem header_mark (haligned : block.size % 8 = 0) (hlow : 4 ≤ block.address)
    (hfooter : 8 ≤ block.stop) (hhigh : block.address ≤ memory.size) :
    (memory.mark block).tag (block.address - wordSize) =
      .ofSize block.size block.allocated := by
  simp only [Block.stop] at hfooter
  rw [mark, tag, word_setWord_of_disjoint, word_setWord_same] <;>
    simp only [Block.stop, wordSize, overhead] <;> omega

/-- The tags of a block inside the memory are read back as they were written. -/
theorem marked_mark (hlow : 4 ≤ block.address) (hsize : 8 ≤ block.size)
    (hend : block.stop ≤ memory.size + 4) : (memory.mark block).Marked block := by
  simp only [Block.stop] at hend
  constructor
  · rw [mark, tag, word_setWord_of_disjoint, word_setWord_same] <;>
      simp only [Block.stop, wordSize, overhead] <;> omega
  · rw [mark, tag, word_setWord_same]
    simp only [size_setWord, Block.stop, wordSize, overhead]
    omega

/-- A block stays marked when the bytes of its tags stay. -/
theorem Marked.congr (h : memory.Marked block) (hlow : 4 ≤ block.address) (hsize : 8 ≤ block.size)
    (hsame : ∀ address, block.InTags address → other.byte address = memory.byte address) :
    other.Marked block := by
  constructor
  · refine (tag_congr fun inside hle hlt => hsame inside (.inl ⟨hle, ?_⟩)).trans h.header
    simp only [wordSize] at hlt ⊢
    omega
  · refine (tag_congr fun inside hle hlt => hsame inside (.inr ⟨hle, ?_⟩)).trans h.footer
    simp only [Block.stop, wordSize, overhead] at hlt ⊢
    omega

/-- A marked block has tags that decode to it. -/
theorem Marked.tagged (h : memory.Marked block) (haligned : block.size % 8 = 0)
    (hfits : block.size < 0x1_0000_0000) : memory.Tagged block := by
  refine ⟨?_, h.footer.trans h.header.symm⟩
  rw [h.header, Tag.decode, Tag.size_ofSize haligned hfits, Tag.allocated_ofSize haligned]

/-! ## The end of the memory -/

/-- Write the tags of a block, and behind it the epilogue. -/
def close (memory : Memory) (block : Block) : Memory :=
  (memory.mark block).setWord (block.stop - wordSize) Tag.epilogue.bits

@[simp] theorem size_close (memory : Memory) (block : Block) :
    (memory.close block).size = memory.size := by
  simp [close]

theorem marked_close (hlow : 4 ≤ block.address) (hsize : 8 ≤ block.size)
    (hend : block.stop ≤ memory.size) : (memory.close block).Marked block := by
  have hmarked : (memory.mark block).Marked block := marked_mark hlow hsize (by omega)
  refine hmarked.congr hlow hsize fun address hin => ?_
  refine byte_setWord_of_outside _ _ ?_
  simp only [Block.InTags, Block.stop, overhead, wordSize] at hin ⊢
  omega

theorem tag_close (hlow : 4 ≤ block.stop) (hend : block.stop ≤ memory.size) :
    (memory.close block).tag (block.stop - wordSize) = .epilogue := by
  rw [tag, close, word_setWord_same]
  simp only [size_mark, wordSize]
  omega

/-- Closing changes nothing below the header of the block. -/
theorem byte_close_of_lt (hlow : 4 ≤ block.address) (hsize : 8 ≤ block.size) {address : Nat}
    (hlt : address < block.address - 4) :
    (memory.close block).byte address = memory.byte address := by
  rw [close, byte_setWord_of_outside, byte_mark_of_outside hlow hsize]
  all_goals
    simp only [Block.InTags, Block.stop, overhead, wordSize]
    omega

end Memory

/-- Setting the tags of a block inside the memory marks it. -/
theorem Heap.run_setTags_block {σ : Type} {heap : Heap σ} (block : Block)
    (haligned : block.size % 8 = 0) (hfits : block.size < 0x1_0000_0000) (hlow : 4 ≤ block.address)
    (hbp : block.address ≤ heap.memory.size) (hsize : 8 ≤ block.size)
    (hend : block.stop ≤ heap.memory.size + 4) (hspace : block.stop < addressSpace) :
    (setTags block.address block.size block.allocated).run heap =
      .ok () (heap.withMemory (heap.memory.mark block)) :=
  run_setTags haligned hfits hlow hbp (by omega) hend hspace

end BoundaryTag
