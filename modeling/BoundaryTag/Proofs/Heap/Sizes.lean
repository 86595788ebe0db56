import BoundaryTag.Masks
import BoundaryTag.Proofs.Heap.Appending
import BoundaryTag.Proofs.Heap.Choosing

/-!
# Exact block sizes

`leastSize` is the least size of a block that holds a request, without any limit. A request has a
block size exactly when this is a size that a tag can hold, and then it is this one
(`blockSizeFor?_eq`). `exactSizes_of_aligned` says what follows for requests of all 64-bit sizes: no
sum wraps on the way (`ExactSizes.sums`), larger requests need larger blocks, and every block size
survives being put into a tag.
-/

namespace BoundaryTag

variable {requested larger minBlock : Nat}

/-- The least size of a block that holds this many bytes with both tags. -/
def leastSize (requested minBlock : Nat) : Nat := max (roundedUp (requested + overhead)) minBlock

/-- It is the least multiple of the alignment with room for the bytes and both tags. -/
theorem isLeast_leastSize (requested : Nat) (haligned : minBlock % 8 = 0) :
    IsLeast (blockSizes requested minBlock) (leastSize requested minBlock) := by
  have hmod := roundedUp_mod (requested + overhead)
  refine ⟨⟨?_, ?_, Nat.le_max_right ..⟩, fun other ⟨hother, hroom, hmin⟩ => ?_⟩
  all_goals
    simp only [leastSize, roundedUp, alignment, overhead, wordSize] at *
    omega

theorem leastSize_mono (hle : requested ≤ larger) (minBlock : Nat) :
    leastSize requested minBlock ≤ leastSize larger minBlock := by
  simp only [leastSize, roundedUp, alignment, overhead, wordSize]
  omega

/-- A request has a block size exactly when a tag can hold the least one. -/
theorem blockSizeFor?_eq (requested minBlock : Nat) :
    blockSizeFor? requested minBlock =
      if leastSize requested minBlock ≤ largestBlock then some (leastSize requested minBlock)
      else none := by
  rw [blockSizeFor?]
  by_cases hfits : requested + overhead + (alignment - 1) < addressSpace
  · have hround : roundUp? (requested + overhead) alignment =
        some (roundedUp (requested + overhead)) := if_pos hfits
    have hguard : (guard (requested + overhead < addressSpace) : Option Unit) = some () :=
      if_pos (by omega)
    rw [hguard, hround]
    show (do guard (leastSize requested minBlock ≤ largestBlock);
              some (leastSize requested minBlock)) = _
    by_cases hlargest : leastSize requested minBlock ≤ largestBlock
    · have hheld : (guard (leastSize requested minBlock ≤ largestBlock) : Option Unit) = some () :=
        if_pos hlargest
      rw [if_pos hlargest, hheld]
      rfl
    · have hnone : (guard (leastSize requested minBlock ≤ largestBlock) : Option Unit) = none :=
        if_neg hlargest
      rw [if_neg hlargest, hnone]
      rfl
  · -- the end of the address space is far beyond what a tag can hold
    have hround : roundUp? (requested + overhead) alignment = none := if_neg hfits
    have hlarge : ¬ leastSize requested minBlock ≤ largestBlock := by
      simp only [leastSize, roundedUp, alignment, overhead, wordSize, addressSpace,
        largestBlock] at *
      omega
    rw [if_neg hlarge, hround]
    cases (guard (requested + overhead < addressSpace) : Option Unit) <;> rfl

/-- The sizes of blocks for requests of 64-bit sizes are exact: they are the least ones whenever a
tag can hold these, and there is none otherwise. They grow with the request, registers and masks
lead to the same ones with sums that do not wrap, and a tag keeps them with either flag. -/
structure ExactSizes (minBlock : UInt64) : Prop where
  eq_some_iff (requested : UInt64) (size : Nat) :
    blockSizeFor? requested.toNat minBlock.toNat = some size ↔
      IsLeast (blockSizes requested.toNat minBlock.toNat) size ∧ size ≤ largestBlock
  eq_none_iff (requested : UInt64) :
    blockSizeFor? requested.toNat minBlock.toNat = none ↔
      ∃ least, IsLeast (blockSizes requested.toNat minBlock.toNat) least ∧ largestBlock < least
  mono {requested larger : UInt64} (hle : requested ≤ larger) {size : Nat}
    (hsize : blockSizeFor? larger.toNat minBlock.toNat = some size) :
    ∃ smaller ≤ size, blockSizeFor? requested.toNat minBlock.toNat = some smaller
  masked_eq (requested : UInt64) :
    (maskedSizeFor? requested minBlock).map UInt64.toNat =
      blockSizeFor? requested.toNat minBlock.toNat
  sums {requested size : UInt64} (hsize : maskedSizeFor? requested minBlock = some size) :
    ∃ held padded, checkedAdd? requested (.ofNat overhead) = some held ∧
      held.toNat = requested.toNat + overhead ∧
      checkedAdd? held (.ofNat alignment - 1) = some padded ∧
      padded.toNat = requested.toNat + overhead + (alignment - 1) ∧
      size = max (padded &&& ~~~(.ofNat alignment - 1)) minBlock
  packed {requested size : UInt64} (hsize : maskedSizeFor? requested minBlock = some size)
    (allocated : Bool) :
    ∃ tag, Tag.packMasked size allocated = .ok tag ∧ Tag.pack size.toNat allocated = .ok tag ∧
      tag.decode = (size.toNat, allocated) ∧ (tag.maskedSize, tag.flagSet) = (size, allocated)

/-- The sizes of blocks are exact for every least block that is a multiple of the alignment. -/
theorem exactSizes_of_aligned {minBlock : UInt64} (haligned : minBlock.toNat % alignment = 0) :
    ExactSizes minBlock := by
  have hleast := fun requested : UInt64 => isLeast_leastSize requested.toNat haligned
  constructor
  case eq_some_iff =>
    intro requested size
    rw [blockSizeFor?_eq]
    constructor
    · intro hsome
      split at hsome
      next hlargest => exact Option.some.inj hsome ▸ ⟨hleast requested, hlargest⟩
      next => exact nomatch hsome
    · rintro ⟨hsize, hlargest⟩
      obtain rfl := (hleast requested).unique hsize
      exact if_pos hlargest
  case eq_none_iff =>
    intro requested
    rw [blockSizeFor?_eq]
    constructor
    · intro hnone
      split at hnone
      next => exact nomatch hnone
      next hlarge => exact ⟨_, hleast requested, Nat.lt_of_not_le hlarge⟩
    · rintro ⟨least, hother, hlarge⟩
      obtain rfl := (hleast requested).unique hother
      exact if_neg (Nat.not_le.2 hlarge)
  case mono =>
    intro requested larger hle size hsize
    rw [blockSizeFor?_eq] at hsize ⊢
    have hmono := leastSize_mono (UInt64.le_iff_toNat_le.1 hle) minBlock.toNat
    split at hsize
    next hlargest =>
      obtain rfl := Option.some.inj hsize
      exact ⟨_, hmono, if_pos (hmono.trans hlargest)⟩
    next => exact nomatch hsize
  case masked_eq => exact fun requested => map_toNat_maskedSizeFor? requested minBlock
  case sums =>
    intro requested size hsize
    obtain ⟨held, hheld, hsize⟩ := Option.bind_eq_some_iff.1 hsize
    obtain ⟨rounded, hrounded, hsize⟩ := Option.bind_eq_some_iff.1 hsize
    obtain ⟨padded, hpadded, hmask⟩ := Option.bind_eq_some_iff.1 hrounded
    have hheldEq := checkedAdd?_eq_some_iff.1 hheld
    have hpaddedEq := checkedAdd?_eq_some_iff.1 hpadded
    rw [hheldEq] at hpaddedEq
    refine ⟨held, padded, hheld, hheldEq, hpadded, hpaddedEq, ?_⟩
    obtain rfl := Option.some.inj hmask
    dsimp only at hsize
    split at hsize
    next => exact nomatch hsize
    next => exact (Option.some.inj hsize).symm
  case packed =>
    intro requested size hsize allocated
    have hsizeFor : blockSizeFor? requested.toNat minBlock.toNat = some size.toNat := by
      rw [← map_toNat_maskedSizeFor?, hsize]
      rfl
    obtain ⟨-, -, hmod, hlargest⟩ := blockSizeFor?_spec haligned hsizeFor
    have hfits : size.toNat < 0x1_0000_0000 := Nat.lt_of_le_of_lt hlargest (by decide)
    have hpack := Tag.pack_of_aligned hmod hfits allocated
    have hread := Tag.size_ofSize hmod hfits allocated
    have hflag := Tag.allocated_ofSize hmod allocated
    refine ⟨_, (Tag.packMasked_eq size allocated).trans hpack, hpack, ?_, ?_⟩
    · rw [Tag.decode, hread, hflag]
    · have hmasked : (Tag.ofSize size.toNat allocated).maskedSize = size :=
        UInt64.toNat_inj.1 ((Tag.toNat_maskedSize _).trans hread)
      rw [hmasked, Tag.flagSet_eq, hflag]

/-- With blocks of at least 32 bytes, the largest request that has a block leaves room for both
tags below the largest size of a tag. The next one has none, and neither has one that makes a sum
wrap. -/
theorem exactSizes_of_thirtyTwo : (32 : UInt64).toNat % alignment = 0 ∧ ExactSizes 32 ∧
    maskedSizeFor? 8 32 = some 32 ∧ maskedSizeFor? 100 32 = some 112 ∧
    maskedSizeFor? 0xffff_fff0 32 = some 0xffff_fff8 ∧ maskedSizeFor? 0xffff_fff1 32 = none ∧
    maskedSizeFor? 0xffff_ffff_ffff_fff8 32 = none :=
  ⟨rfl, exactSizes_of_aligned rfl, by decide, by decide, by decide, by decide, by decide⟩

end BoundaryTag
