import BoundaryTag.Failure

/-!
# Words, alignment and checked addresses

Addresses and sizes are natural numbers below `addressSpace`. Sums and differences of addresses
are checked: they fault where a 64-bit register would wrap. `roundUp?` is the one rounding rule
of the library: `roundUp?_eq_none_iff` says when it fails, and `roundUp?_alignment` what it
yields otherwise.
-/

namespace BoundaryTag

/-- The bytes of a boundary tag, and of a free-list link. -/
@[simp] abbrev wordSize : Nat := 4

/-- Block sizes and block pointers are multiples of this. -/
@[simp] abbrev alignment : Nat := 8

/-- The bytes of a block that are not payload: its header and its footer. -/
@[simp] abbrev overhead : Nat := 2 * wordSize

/-- The smallest block that has room for its two links when it is free. -/
@[simp] abbrev smallestBlock : Nat := overhead + 2 * wordSize

/-- Addresses are 64-bit numbers. -/
@[simp] abbrev addressSpace : Nat := 0x1_0000_0000_0000_0000

/-- Every offset into a heap fits in a 32-bit tag or link, so a heap is never larger than this. -/
@[simp] abbrev heapLimit : Nat := 0xffff_ffff

/-- The largest size that a tag can hold. -/
@[simp] abbrev largestBlock : Nat := 0xffff_fff8

/-- The sum of two addresses, if it is an address. -/
def Address.add (a b : Nat) : Except Fault Nat :=
  if a + b < addressSpace then .ok (a + b) else .error .overflow

/-- The difference of two addresses, if it is not negative. -/
def Address.sub (a b : Nat) : Except Fault Nat :=
  if b ≤ a then .ok (a - b) else .error .underflow

theorem Address.add_of_lt {a b : Nat} (h : a + b < addressSpace) :
    Address.add a b = .ok (a + b) := if_pos h

theorem Address.sub_of_le {a b : Nat} (h : b ≤ a) : Address.sub a b = .ok (a - b) := if_pos h

theorem Address.eq_of_add {a b sum : Nat} (h : Address.add a b = .ok sum) : sum = a + b := by
  unfold Address.add at h
  split at h
  · exact (Except.ok.inj h).symm
  · cases h

theorem Address.eq_of_sub {a b difference : Nat} (h : Address.sub a b = .ok difference) :
    b ≤ a ∧ difference = a - b := by
  unfold Address.sub at h
  split at h
  next hle => exact ⟨hle, (Except.ok.inj h).symm⟩
  next => cases h

/-- The least multiple of `unit` at or above `value`, unless adding `unit - 1` leaves the 64-bit
range. -/
def roundUp? (value unit : Nat) : Option Nat :=
  if value + (unit - 1) < addressSpace then some ((value + (unit - 1)) / unit * unit) else none

/-- Rounding up fails exactly near the end of the address space. -/
theorem roundUp?_eq_none_iff {value unit : Nat} :
    roundUp? value unit = none ↔ addressSpace ≤ value + (unit - 1) := by
  unfold roundUp?
  split <;> simp <;> simp at * <;> omega

/-- A number that is rounded up becomes a multiple that is less than one unit away. -/
theorem roundUp?_spec {value unit result : Nat} (hunit : 0 < unit)
    (h : roundUp? value unit = some result) :
    unit ∣ result ∧ value ≤ result ∧ result < value + unit ∧
      value + (unit - 1) < addressSpace := by
  unfold roundUp? at h
  split at h
  next hspace =>
    obtain rfl := Option.some.inj h
    have hsplit := Nat.div_add_mod' (value + (unit - 1)) unit
    have hrest := Nat.mod_lt (value + (unit - 1)) hunit
    exact ⟨Nat.dvd_mul_left .., by omega, by omega, hspace⟩
  next => cases h

/-- Rounding up to a multiple of the alignment, in a form that linear arithmetic can use. -/
theorem roundUp?_alignment {value result : Nat} (h : roundUp? value alignment = some result) :
    result % 8 = 0 ∧ value ≤ result ∧ result < value + 8 ∧ value + 7 < addressSpace := by
  obtain ⟨hmultiple, hspec⟩ := roundUp?_spec (by decide) h
  exact ⟨Nat.mod_eq_zero_of_dvd hmultiple, hspec⟩

end BoundaryTag
