import BoundaryTag.Settings
import BoundaryTag.Tag
import Mathlib.Algebra.Ring.Nat

/-!
# Sizes and tags in registers

The arithmetic of sizes and tags as a machine carries it out: sums of 64-bit registers that notice
a carry, rounding by clearing low bits, and a flag that is put into a word and masked out again.
The lemmas say that all of it is what `roundUp?`, `blockSizeFor?` and `Tag` say with numbers:
`map_toNat_maskedSizeFor?` for the size of a block, `Tag.packMasked_eq` for a tag.
-/

namespace BoundaryTag

/-! ## Sizes -/

/-- The sum of two registers, unless there is a carry. -/
def checkedAdd? (a b : UInt64) : Option UInt64 := if a + b < a then none else some (a + b)

/-- The least multiple of `unit`, a power of two, at or above `value`, unless adding `unit - 1`
gives a carry. -/
def maskUp? (value unit : UInt64) : Option UInt64 := do
  return (← checkedAdd? value (unit - 1)) &&& ~~~(unit - 1)

/-- The bits of a tag that are part of the size. -/
def sizeMask : UInt32 := ~~~7

/-- The bit of a tag that is set when the block is allocated. -/
def allocatedFlag : UInt32 := 1

/-- The size of the block for a request, in registers. -/
def maskedSizeFor? (requested minBlock : UInt64) : Option UInt64 := do
  let padded ← maskUp? (← checkedAdd? requested (.ofNat overhead)) (.ofNat alignment)
  let size := max padded minBlock
  if size > sizeMask.toUInt64 then none else return size

/-- There is no carry as long as the sum stays in the 64-bit range. -/
theorem checkedAdd?_of_lt {a b : UInt64} (h : a.toNat + b.toNat < addressSpace) :
    checkedAdd? a b = some (a + b) ∧ (a + b).toNat = a.toNat + b.toNat := by
  have hsum : (a + b).toNat = a.toNat + b.toNat :=
    (UInt64.toNat_add a b).trans (Nat.mod_eq_of_lt h)
  refine ⟨if_neg fun hcarry => ?_, hsum⟩
  rw [UInt64.lt_iff_toNat_lt] at hcarry
  omega

/-- There is a carry when the sum leaves the 64-bit range. -/
theorem checkedAdd?_of_le {a b : UInt64} (h : addressSpace ≤ a.toNat + b.toNat) :
    checkedAdd? a b = none := by
  have ha := a.toNat_lt
  have hb := b.toNat_lt
  have hsum : (a + b).toNat = (a.toNat + b.toNat) % 2 ^ 64 := UInt64.toNat_add a b
  refine if_pos (UInt64.lt_iff_toNat_lt.2 ?_)
  simp only [addressSpace] at h
  omega

/-- A sum of registers is either exact or none. -/
theorem checkedAdd?_eq_some_iff {a b sum : UInt64} :
    checkedAdd? a b = some sum ↔ sum.toNat = a.toNat + b.toNat := by
  by_cases hfits : a.toNat + b.toNat < addressSpace
  · obtain ⟨hadd, hsum⟩ := checkedAdd?_of_lt hfits
    rw [hadd, Option.some_inj, ← hsum, UInt64.toNat_inj]
    exact eq_comm
  · rw [checkedAdd?_of_le (Nat.le_of_not_lt hfits)]
    refine ⟨(nomatch ·), fun hsum => absurd sum.toNat_lt ?_⟩
    rw [hsum]
    exact hfits

/-- Clearing the low bits of a number rounds it down. -/
theorem toNat_clearLow {width exponent : Nat} (value : BitVec width) {mask : BitVec width}
    (hmask : mask.toNat = 2 ^ exponent - 1) :
    (value &&& ~~~mask).toNat = value.toNat / 2 ^ exponent * 2 ^ exponent := by
  apply Nat.eq_of_testBit_eq
  intro position
  rw [Nat.testBit_mul_two_pow, Nat.testBit_div_two_pow, BitVec.testBit_toNat, BitVec.getLsbD_and,
    BitVec.getLsbD_not, ← BitVec.testBit_toNat (x := mask), hmask, Nat.testBit_two_pow_sub_one]
  by_cases hlow : position < exponent
  · simp [hlow, Nat.not_le.2 hlow]
  · have hhigh : exponent ≤ position := Nat.le_of_not_lt hlow
    rw [Nat.sub_add_cancel hhigh, BitVec.testBit_toNat]
    by_cases hwidth : position < width
    · simp [hwidth, hlow, hhigh]
    · simp [BitVec.getLsbD_of_ge value position (Nat.le_of_not_lt hwidth)]

/-- Rounding up by a mask is rounding up by division. -/
theorem map_toNat_maskUp? (value : UInt64) {unit : UInt64} {exponent : Nat}
    (hunit : unit.toNat = 2 ^ exponent) :
    (maskUp? value unit).map UInt64.toNat = roundUp? value.toNat unit.toNat := by
  have hle : (1 : UInt64) ≤ unit := UInt64.le_iff_toNat_le.2 (hunit ▸ Nat.one_le_two_pow)
  have hmask : (unit - 1).toNat = unit.toNat - 1 := UInt64.toNat_sub_of_le _ _ hle
  have hclear : ∀ raised : UInt64, (raised &&& ~~~(unit - 1)).toNat =
      raised.toNat / unit.toNat * unit.toNat := by
    intro raised
    rw [hunit]
    exact toNat_clearLow raised.toBitVec (hmask.trans (congrArg (· - 1) hunit))
  rw [maskUp?, roundUp?, ← hmask]
  by_cases hfits : value.toNat + (unit - 1).toNat < addressSpace
  · obtain ⟨hadd, hsum⟩ := checkedAdd?_of_lt hfits
    rw [hadd, if_pos hfits, ← hsum]
    exact congrArg some (hclear (value + (unit - 1)))
  · rw [checkedAdd?_of_le (Nat.le_of_not_lt hfits), if_neg hfits]
    rfl

theorem toNat_max (a b : UInt64) : (max a b).toNat = max a.toNat b.toNat :=
  (apply_ite UInt64.toNat (a ≤ b) b a).trans
    (ite_congr (propext UInt64.le_iff_toNat_le) (fun _ => rfl) fun _ => rfl)

/-- A size that a tag can hold is kept. -/
theorem map_toNat_limited (size : UInt64) :
    (if size > sizeMask.toUInt64 then none else some size).map UInt64.toNat =
      (guard (size.toNat ≤ largestBlock) : Option Unit).bind fun _ => some size.toNat := by
  have hlimit : size > sizeMask.toUInt64 ↔ largestBlock < size.toNat := UInt64.lt_iff_toNat_lt
  by_cases hfits : size.toNat ≤ largestBlock
  · have hguard : (guard (size.toNat ≤ largestBlock) : Option Unit) = some () := if_pos hfits
    rw [if_neg (mt hlimit.1 (Nat.not_lt.2 hfits)), hguard]
    rfl
  · have hnone : (guard (size.toNat ≤ largestBlock) : Option Unit) = none := if_neg hfits
    rw [if_pos (hlimit.2 (Nat.lt_of_not_le hfits)), hnone]
    rfl

/-- The size of a block does not depend on whether it is computed in registers. -/
theorem map_toNat_maskedSizeFor? (requested minBlock : UInt64) :
    (maskedSizeFor? requested minBlock).map UInt64.toNat =
      blockSizeFor? requested.toNat minBlock.toNat := by
  rw [maskedSizeFor?, blockSizeFor?]
  by_cases hfits : requested.toNat + overhead < addressSpace
  · have hguard : (guard (requested.toNat + overhead < addressSpace) : Option Unit) = some () :=
      if_pos hfits
    obtain ⟨hadd, hsum⟩ := checkedAdd?_of_lt (b := .ofNat overhead) hfits
    have hrounded := map_toNat_maskUp? (requested + .ofNat overhead)
      (show (UInt64.ofNat alignment).toNat = 2 ^ 3 from rfl)
    rw [hsum] at hrounded
    rw [hadd, hguard]
    show ((maskUp? (requested + .ofNat overhead) (.ofNat alignment)).bind _).map UInt64.toNat =
      (roundUp? (requested.toNat + overhead) alignment).bind _
    rw [show roundUp? (requested.toNat + overhead) alignment = _ from hrounded.symm,
      Option.map_bind, Option.bind_map]
    refine congrArg _ (funext fun padded => ?_)
    exact (map_toNat_limited (max padded minBlock)).trans (by rw [toNat_max]; rfl)
  · have hnone : (guard (requested.toNat + overhead < addressSpace) : Option Unit) = none :=
      if_neg hfits
    rw [checkedAdd?_of_le (b := .ofNat overhead) (Nat.le_of_not_lt hfits), hnone]
    rfl

namespace Tag

/-! ## Tags -/

/-- The tag of a block: the low half of a register, with the flag put in. -/
def packMasked (size : UInt64) (allocated : Bool) : Except Fault Tag :=
  if size % .ofNat alignment ≠ 0 then .error (.unalignedSize size.toNat)
  else if size > .ofNat heapLimit then .error (.oversizedTag size.toNat)
  else .ok ⟨size.toUInt32 ||| if allocated then allocatedFlag else 0⟩

/-- The size in a tag, masked out of its word. -/
def maskedSize (tag : Tag) : UInt64 := (tag.bits &&& sizeMask).toUInt64

/-- Whether the flag of a tag is set. -/
def flagSet (tag : Tag) : Bool := tag.bits &&& allocatedFlag ≠ 0

/-- What is masked out of a tag is its size. -/
theorem toNat_maskedSize (tag : Tag) : tag.maskedSize.toNat = tag.size :=
  toNat_clearLow tag.bits.toBitVec (show (7 : BitVec 32).toNat = 2 ^ 3 - 1 from rfl)

/-- The masked bit is the flag. -/
theorem flagSet_eq (tag : Tag) : tag.flagSet = tag.allocated := by
  have hflag : (tag.bits &&& allocatedFlag).toNat = tag.bits.toNat % 2 :=
    (UInt32.toNat_and _ _).trans (Nat.and_two_pow_sub_one_eq_mod _ 1)
  refine decide_eq_decide.2 ?_
  rw [ne_eq, ← UInt32.toNat_inj, hflag]
  show tag.bits.toNat % 2 ≠ 0 ↔ _
  omega

/-- The flag is put into a bit that an aligned size leaves free. -/
theorem masked_bits {size : UInt64} (haligned : size.toNat % 8 = 0)
    (hfits : size.toNat ≤ heapLimit) (allocated : Bool) :
    (size.toUInt32 ||| if allocated then allocatedFlag else 0) =
      UInt32.ofNat (size.toNat + allocated.toNat) := by
  have hlow : size.toUInt32.toNat = size.toNat := by
    rw [UInt64.toNat_toUInt32, Nat.mod_eq_of_lt (Nat.lt_succ_of_le hfits)]
  have hflag : (if allocated then allocatedFlag else 0).toNat = allocated.toNat := by
    cases allocated <;> rfl
  have hfree : size.toNat = 2 ^ 3 * (size.toNat / 2 ^ 3) := by omega
  have hor : size.toNat ||| allocated.toNat = size.toNat + allocated.toNat := by
    rw [hfree]
    exact (Nat.two_pow_add_eq_or_of_lt (Nat.lt_of_le_of_lt allocated.toNat_le (by decide)) _).symm
  refine UInt32.toNat_inj.1 ?_
  have hle : allocated.toNat ≤ 1 := allocated.toNat_le
  simp only [heapLimit] at hfits
  rw [UInt32.toNat_or, hlow, hflag, hor, UInt32.toNat_ofNat', Nat.mod_eq_of_lt (by omega)]

/-- Packing in registers makes the same tag, or fails in the same way. -/
theorem packMasked_eq (size : UInt64) (allocated : Bool) :
    packMasked size allocated = pack size.toNat allocated := by
  have haligned : size % .ofNat alignment ≠ 0 ↔ size.toNat % alignment ≠ 0 :=
    not_congr UInt64.toNat_inj.symm
  have hlimit : size > .ofNat heapLimit ↔ size.toNat > heapLimit := UInt64.lt_iff_toNat_lt
  unfold packMasked pack
  simp only [haligned, hlimit]
  split
  next => rfl
  next hmod =>
    split
    next => rfl
    next hfits =>
      rw [ofSize, masked_bits (Decidable.of_not_not hmod) (Nat.le_of_not_lt hfits)]

end Tag

end BoundaryTag
