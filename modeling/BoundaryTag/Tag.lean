import BoundaryTag.Address

/-!
# Boundary tags

A tag is the 32-bit word that stands before and after every block. Sizes are multiples of eight, so
the three low bits are no part of the size; the lowest one is set when the block is allocated.
`Tag.pack` faults on the sizes that a tag cannot hold; `Tag.size_ofSize` and `Tag.allocated_ofSize`
say that every other size is read back unchanged with its flag.
-/

namespace BoundaryTag

/-- A size and an allocated flag in one 32-bit word. -/
structure Tag where
  bits : UInt32
  deriving DecidableEq, Repr

namespace Tag

/-- The size of the whole block, header and footer included. -/
def size (tag : Tag) : Nat := tag.bits.toNat / alignment * alignment

/-- Whether the block is allocated. -/
def allocated (tag : Tag) : Bool := tag.bits.toNat % 2 = 1

/-- Size and flag together. -/
def decode (tag : Tag) : Nat × Bool := (tag.size, tag.allocated)

/-- The tag of a block of this size, which is a multiple of the alignment below `2 ^ 32`. -/
def ofSize (size : Nat) (allocated : Bool) : Tag :=
  ⟨UInt32.ofNat (size + allocated.toNat)⟩

/-- The tag of a block, or a fault when a tag cannot hold the size. -/
def pack (size : Nat) (allocated : Bool) : Except Fault Tag :=
  if size % alignment ≠ 0 then .error (.unalignedSize size)
  else if size > heapLimit then .error (.oversizedTag size)
  else .ok (ofSize size allocated)

/-- The tag after the last block: no bytes, allocated, so that no merge runs past the end. -/
def epilogue : Tag := ofSize 0 true

/-- A tag as `[size:flag]`, with `a` for allocated and `f` for free. -/
def render (tag : Tag) : String :=
  s!"[{tag.size}:" ++ (if tag.allocated then "a" else "f") ++ "]"

/-- A size below `2 ^ 32` that is a multiple of eight is read back from its tag. -/
theorem size_ofSize {size : Nat} (haligned : size % 8 = 0) (hfits : size < 0x1_0000_0000)
    (allocated : Bool) : (ofSize size allocated).size = size := by
  have hflag : allocated.toNat ≤ 1 := Bool.toNat_le allocated
  simp only [ofSize, Tag.size, UInt32.toNat_ofNat', alignment]
  omega

/-- The flag is read back from its tag. -/
theorem allocated_ofSize {size : Nat} (haligned : size % 8 = 0) (allocated : Bool) :
    (ofSize size allocated).allocated = allocated := by
  cases allocated <;> simp [ofSize, Tag.allocated, UInt32.toNat_ofNat'] <;> omega

/-- The size in a tag is a multiple of eight. -/
theorem size_mod (tag : Tag) : tag.size % 8 = 0 := by
  simp [Tag.size]

/-- The size in a tag is below `2 ^ 32`. -/
theorem size_lt (tag : Tag) : tag.size < 0x1_0000_0000 := by
  have := tag.bits.toNat_lt
  simp only [Tag.size, alignment]
  omega

/-- Packing succeeds on exactly the aligned sizes of 32 bits. -/
theorem pack_of_aligned {size : Nat} (haligned : size % 8 = 0) (hfits : size < 0x1_0000_0000)
    (allocated : Bool) : pack size allocated = .ok (ofSize size allocated) := by
  simp only [pack, alignment, heapLimit]
  rw [if_neg (by omega), if_neg (by omega)]

/-- A size that could be packed is aligned and has 32 bits. -/
theorem eq_of_pack {size : Nat} {allocated : Bool} {tag : Tag} (h : pack size allocated = .ok tag) :
    size % 8 = 0 ∧ size < 0x1_0000_0000 ∧ tag = ofSize size allocated := by
  unfold pack at h
  split at h
  · cases h
  · split at h
    · cases h
    · next haligned hfits =>
      simp only [alignment, heapLimit] at haligned hfits
      exact ⟨by omega, by omega, (Except.ok.inj h).symm⟩

end Tag

end BoundaryTag
