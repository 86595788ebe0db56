import BoundaryTag.Address

/-!
# Settings of a heap, and the block size of a request

The settings say how much a heap grows at a time and how small a block may be. `Settings.check`
rejects those under which a block could lose its alignment or its room for links. `blockSizeFor?`
turns the bytes that a caller wants into the size of the block that holds them.
-/

namespace BoundaryTag

/-- How a heap grows and splits. -/
structure Settings where
  /-- The size of the first free block, and the least amount by which the heap grows. -/
  chunkSize : Nat := 4096
  /-- The least size of a block, below which nothing is split off. -/
  minBlock : Nat := smallestBlock
  deriving DecidableEq, Repr

namespace Settings

/-- The settings for which none are asked: chunks of 4096 bytes and the smallest blocks. -/
def standard : Settings := {}

/-- The settings as a record of their two fields. -/
def render (settings : Settings) : String :=
  s!"HeapConfig \x7b chunk_size: {settings.chunkSize}, min_block_size: {settings.minBlock} \x7d"

/-- Every block of a heap with these settings is aligned and has room for its links. -/
structure Valid (settings : Settings) : Prop where
  smallest_le : smallestBlock ≤ settings.minBlock
  minBlock_aligned : settings.minBlock % alignment = 0
  minBlock_le : settings.minBlock ≤ settings.chunkSize
  chunkSize_aligned : settings.chunkSize % alignment = 0
  chunkSize_le : settings.chunkSize ≤ heapLimit

/-- Refuse settings that are not valid. -/
def check (settings : Settings) : Except Refusal Unit :=
  if settings.minBlock < smallestBlock ∨ settings.minBlock % alignment ≠ 0 then
    .error .badSettings
  else if settings.chunkSize < settings.minBlock ∨ settings.chunkSize % alignment ≠ 0 ∨
      settings.chunkSize > heapLimit then
    .error .badSettings
  else .ok ()

/-- The check accepts exactly the valid settings. -/
theorem check_eq_ok_iff {settings : Settings} : settings.check = .ok () ↔ settings.Valid := by
  constructor
  · intro hcheck
    unfold check at hcheck
    split at hcheck
    · exact nomatch hcheck
    · split at hcheck
      · exact nomatch hcheck
      · constructor <;> simp at * <;> omega
  · rintro ⟨h1, h2, h3, h4, h5⟩
    unfold check
    rw [if_neg (by simp at *; omega), if_neg (by simp at *; omega)]

end Settings

/-- The size of the block for a request: the requested bytes and the two tags, rounded up to the
alignment, and no less than `minBlock`. A size that no tag can hold is none. -/
def blockSizeFor? (requested minBlock : Nat) : Option Nat := do
  guard (requested + overhead < addressSpace)
  let padded ← roundUp? (requested + overhead) alignment
  let size := max padded minBlock
  guard (size ≤ largestBlock)
  return size

/-- The block for a request holds it with both tags, and can be a block of a heap with this least
size. -/
theorem blockSizeFor?_spec {requested minBlock size : Nat} (haligned : minBlock % 8 = 0)
    (h : blockSizeFor? requested minBlock = some size) :
    requested + 8 ≤ size ∧ minBlock ≤ size ∧ size % 8 = 0 ∧ size ≤ largestBlock := by
  rw [blockSizeFor?] at h
  obtain ⟨_, -, h⟩ := Option.bind_eq_some_iff.1 h
  obtain ⟨padded, hpadded, h⟩ := Option.bind_eq_some_iff.1 h
  obtain ⟨_, hguard, hsize⟩ := Option.bind_eq_some_iff.1 h
  obtain rfl : max padded minBlock = size := Option.some.inj hsize
  have hlargest : max padded minBlock ≤ largestBlock := by
    by_cases hfits : max padded minBlock ≤ largestBlock
    · exact hfits
    · have hnone : (guard (max padded minBlock ≤ largestBlock) : Option Unit) = none := if_neg hfits
      rw [hnone] at hguard
      cases hguard
  have hrounded := roundUp?_alignment hpadded
  simp only [overhead, wordSize] at hrounded
  omega

end BoundaryTag
