import BoundaryTag.Address
import BoundaryTag.Memory.Contents

/-!
# Byte memory

A memory is a stretch of bytes that can only get longer. Every byte has a value from the start:
those never written hold the memory's blank value. The bytes are kept as `Contents`, so a memory may
be much larger than what it takes to hold it, and filling and copying take no longer for a longer
range. All reading goes through `Memory.byte`; the lemmas say what each operation does to `byte` and
`size`. A 32-bit word is read back as it was written (`Memory.word_setWord_same`) and not disturbed
by other writes (`Memory.word_write_of_disjoint`), and a copied range reads as its source did
(`Memory.slice_copy`).
-/

namespace BoundaryTag

/-- The number whose bytes these are, the least significant one first. -/
def littleEndian : List UInt8 → Nat
  | [] => 0
  | byte :: bytes => byte.toNat + 256 * littleEndian bytes

/-- The four bytes of a word, the least significant one first. -/
def wordBytes (word : UInt32) : List UInt8 :=
  [UInt8.ofNat word.toNat, UInt8.ofNat (word.toNat / 256), UInt8.ofNat (word.toNat / 65536),
    UInt8.ofNat (word.toNat / 16777216)]

@[simp] theorem length_wordBytes (word : UInt32) : (wordBytes word).length = 4 := rfl

/-- The bytes of a word stand for the word. -/
theorem ofNat_littleEndian_wordBytes (word : UInt32) :
    UInt32.ofNat (littleEndian (wordBytes word)) = word := by
  have hlt := word.toNat_lt
  have hvalue : littleEndian (wordBytes word) = word.toNat := by
    simp only [wordBytes, littleEndian, UInt8.toNat_ofNat']
    omega
  rw [hvalue, UInt32.ofNat_toNat]

/-- A stretch of `size` bytes; what lies behind it is blank. -/
structure Memory where
  size : Nat
  blank : UInt8
  contents : Contents
  byte_eq_blank : ∀ address, size ≤ address → contents.byte address = blank

namespace Memory

/-- A memory without bytes, whose later bytes start out blank. -/
def empty (blank : UInt8) : Memory where
  size := 0
  blank := blank
  contents := .equal blank
  byte_eq_blank := fun _ _ => rfl

/-- The byte at an address; beyond the end, the value it will have once the memory reaches it. -/
def byte (memory : Memory) (address : Nat) : UInt8 := memory.contents.byte address

/-- Append this many blank bytes. -/
def extend (memory : Memory) (count : Nat) : Memory :=
  { memory with
    size := memory.size + count
    byte_eq_blank := fun address haddress =>
      memory.byte_eq_blank address (Nat.le_of_add_right_le haddress) }

/-- Replace a range by the first bytes of some contents. Nothing changes if the range does not lie
inside the memory. -/
def replace (memory : Memory) (start length : Nat) (part : Contents) : Memory :=
  if hfits : start + length ≤ memory.size then
    { memory with
      contents := memory.contents.patch start length part
      byte_eq_blank := fun address haddress => by
        rw [Contents.byte_patch, if_neg (by omega), memory.byte_eq_blank address haddress] }
  else memory

/-- Change consecutive bytes, all inside the memory. -/
def write (memory : Memory) (start : Nat) (values : List UInt8) : Memory :=
  memory.replace start values.length (.ofBytes values)

/-- Change a range inside the memory to equal bytes. -/
def fill (memory : Memory) (start length : Nat) (value : UInt8) : Memory :=
  memory.replace start length (.equal value)

/-- Copy a range to another one inside the memory, which may overlap it. -/
def copy (memory : Memory) (source target length : Nat) : Memory :=
  memory.replace target length (memory.contents.drop source)

/-- The bytes of a range. -/
def slice (memory : Memory) (start length : Nat) : List UInt8 :=
  memory.contents.slice start length

/-- The word in the four bytes from this address on. -/
def word (memory : Memory) (address : Nat) : UInt32 :=
  UInt32.ofNat (littleEndian (memory.slice address wordSize))

/-- Change the four bytes from this address on to those of a word. -/
def setWord (memory : Memory) (address : Nat) (word : UInt32) : Memory :=
  memory.write address (wordBytes word)

/-! ## What each operation does to the bytes -/

@[simp] theorem size_empty (blank : UInt8) : (empty blank).size = 0 := rfl

@[simp] theorem byte_empty (blank : UInt8) (address : Nat) :
    (empty blank).byte address = blank := rfl

@[simp] theorem size_extend (memory : Memory) (count : Nat) :
    (memory.extend count).size = memory.size + count := rfl

@[simp] theorem byte_extend (memory : Memory) (count address : Nat) :
    (memory.extend count).byte address = memory.byte address := rfl

/-- A byte beyond the end is blank. -/
theorem byte_of_size_le (memory : Memory) {address : Nat} (h : memory.size ≤ address) :
    memory.byte address = memory.blank := memory.byte_eq_blank address h

@[simp] theorem length_slice (memory : Memory) (start length : Nat) :
    (memory.slice start length).length = length := memory.contents.length_slice start length

theorem getElem?_slice (memory : Memory) (start length index : Nat) :
    (memory.slice start length)[index]? =
      if index < length then some (memory.byte (start + index)) else none :=
  memory.contents.getElem?_slice start length index

/-- A slice depends on the bytes of its range only. -/
theorem slice_congr {memory other : Memory} {start length : Nat}
    (h : ∀ address, start ≤ address → address < start + length →
      memory.byte address = other.byte address) :
    memory.slice start length = other.slice start length := by
  apply List.ext_getElem?
  intro index
  rw [getElem?_slice, getElem?_slice]
  split
  next hlt => rw [h _ (by omega) (by omega)]
  next => rfl

/-- A part of a slice is the slice of that part. -/
theorem take_drop_slice (memory : Memory) {start length offset count : Nat}
    (hrange : offset + count ≤ length) :
    ((memory.slice start length).drop offset).take count =
      memory.slice (start + offset) count := by
  apply List.ext_getElem?
  intro index
  rw [List.getElem?_take, List.getElem?_drop, getElem?_slice, getElem?_slice]
  split
  next hlt => rw [if_pos (by omega), Nat.add_assoc]
  next => rfl

@[simp] theorem size_replace (memory : Memory) (start length : Nat) (part : Contents) :
    (memory.replace start length part).size = memory.size := by
  unfold replace
  split <;> rfl

/-- A replaced range inside the memory has the new bytes, and no other byte changes. -/
theorem byte_replace (memory : Memory) {start length : Nat} (part : Contents) (address : Nat)
    (hend : start + length ≤ memory.size) :
    (memory.replace start length part).byte address =
      if start ≤ address ∧ address < start + length then part.byte (address - start)
      else memory.byte address := by
  rw [replace, dif_pos hend]
  exact memory.contents.byte_patch part start length address

/-- Replacing a range changes no byte outside of it. -/
theorem byte_replace_of_outside (memory : Memory) {start length : Nat} (part : Contents)
    {address : Nat} (h : address < start ∨ start + length ≤ address) :
    (memory.replace start length part).byte address = memory.byte address := by
  by_cases hend : start + length ≤ memory.size
  · rw [byte_replace memory part address hend, if_neg (by omega)]
  · rw [replace, dif_neg hend]

@[simp] theorem size_write (memory : Memory) (start : Nat) (values : List UInt8) :
    (memory.write start values).size = memory.size := size_replace ..

/-- Writing keeps what the later bytes start out as. -/
@[simp] theorem blank_write (memory : Memory) (start : Nat) (values : List UInt8) :
    (memory.write start values).blank = memory.blank := by
  unfold write replace
  split <;> rfl

/-- Writing changes the bytes of its range, and no others. -/
theorem byte_write_of_outside (memory : Memory) (start : Nat) (values : List UInt8) {address : Nat}
    (h : address < start ∨ start + values.length ≤ address) :
    (memory.write start values).byte address = memory.byte address :=
  byte_replace_of_outside memory _ h

/-- Inside the memory, a written byte is read back. -/
theorem byte_write (memory : Memory) (start : Nat) (values : List UInt8) {index : Nat}
    (hindex : index < values.length) (hend : start + values.length ≤ memory.size) :
    (memory.write start values).byte (start + index) = values[index] := by
  rw [write, byte_replace memory _ _ hend, if_pos (by omega), Nat.add_sub_cancel_left,
    Contents.byte_ofBytes hindex]

/-- What was written is the slice read afterwards. -/
theorem slice_write (memory : Memory) (start : Nat) (values : List UInt8)
    (hend : start + values.length ≤ memory.size) :
    (memory.write start values).slice start values.length = values := by
  apply List.ext_getElem?
  intro index
  rw [getElem?_slice]
  split
  next hlt => rw [byte_write memory start values hlt hend, List.getElem?_eq_getElem hlt]
  next hge => rw [List.getElem?_eq_none (by omega)]

/-- A write inside a slice replaces that part of it. -/
theorem slice_write_within (memory : Memory) {start length offset : Nat} (values : List UInt8)
    (hrange : offset + values.length ≤ length)
    (hend : start + offset + values.length ≤ memory.size) :
    (memory.write (start + offset) values).slice start length =
      (memory.slice start length).take offset ++ values ++
        (memory.slice start length).drop (offset + values.length) := by
  apply List.ext_getElem?
  intro index
  have htake : ((memory.slice start length).take offset).length = offset := by
    rw [List.length_take, length_slice, Nat.min_eq_left (by omega)]
  rw [getElem?_slice, write, byte_replace memory _ _ (by omega)]
  by_cases hbefore : index < offset
  · rw [List.append_assoc, List.getElem?_append_left (by omega), List.getElem?_take,
      if_pos hbefore, getElem?_slice, if_neg (show ¬ (start + offset ≤ start + index ∧ _) by omega)]
  · by_cases hwithin : index < offset + values.length
    · obtain ⟨inside, rfl⟩ : ∃ inside, index = offset + inside := ⟨index - offset, by omega⟩
      rw [List.getElem?_append_left (by rw [List.length_append, htake]; omega),
        List.getElem?_append_right (by omega), htake, if_pos (by omega), if_pos (by omega),
        Nat.add_sub_cancel_left, List.getElem?_eq_getElem (by omega), ← Nat.add_assoc,
        Nat.add_sub_cancel_left, Contents.byte_ofBytes (by omega)]
    · obtain ⟨inside, rfl⟩ : ∃ inside, index = offset + values.length + inside :=
        ⟨index - (offset + values.length), by omega⟩
      rw [List.getElem?_append_right (by rw [List.length_append, htake]; omega), List.length_append,
        htake, List.getElem?_drop, Nat.add_sub_cancel_left, getElem?_slice,
        if_neg (show ¬ (_ ∧ start + (offset + values.length + inside) < _) by omega)]

@[simp] theorem size_fill (memory : Memory) (start length : Nat) (value : UInt8) :
    (memory.fill start length value).size = memory.size := size_replace ..

/-- A filled range holds the byte it was filled with, and no other byte changes. -/
theorem byte_fill (memory : Memory) {start length : Nat} (value : UInt8) (address : Nat)
    (hend : start + length ≤ memory.size) :
    (memory.fill start length value).byte address =
      if start ≤ address ∧ address < start + length then value else memory.byte address :=
  byte_replace memory _ address hend

/-- A filled range reads as equal bytes. -/
theorem slice_fill (memory : Memory) {start length : Nat} (value : UInt8)
    (hend : start + length ≤ memory.size) :
    (memory.fill start length value).slice start length = List.replicate length value := by
  apply List.ext_getElem?
  intro index
  rw [getElem?_slice, List.getElem?_replicate]
  split
  next hlt => rw [byte_fill memory value _ hend, if_pos (by omega)]
  next => rfl

@[simp] theorem size_copy (memory : Memory) (source target length : Nat) :
    (memory.copy source target length).size = memory.size := size_replace ..

/-- The target range gets the bytes of the source range, and no other byte changes. -/
theorem byte_copy (memory : Memory) {source target length : Nat} (address : Nat)
    (hend : target + length ≤ memory.size) :
    (memory.copy source target length).byte address =
      if target ≤ address ∧ address < target + length then
        memory.byte (source + (address - target))
      else memory.byte address := by
  rw [copy, byte_replace memory _ address hend, Contents.byte_drop]
  rfl

/-- After a copy, the target range reads as the source range did. -/
theorem slice_copy (memory : Memory) {source target length : Nat}
    (hend : target + length ≤ memory.size) :
    (memory.copy source target length).slice target length = memory.slice source length := by
  apply List.ext_getElem?
  intro index
  rw [getElem?_slice, getElem?_slice]
  split
  next hlt =>
    rw [byte_copy memory _ hend, if_pos (by omega), Nat.add_sub_cancel_left]
  next => rfl

/-! ## Words -/

/-- A word depends on its four bytes only. -/
theorem word_congr {memory other : Memory} {address : Nat}
    (h : ∀ inside, address ≤ inside → inside < address + 4 →
      memory.byte inside = other.byte inside) :
    memory.word address = other.word address := by
  rw [word, word, slice_congr h]

@[simp] theorem size_setWord (memory : Memory) (address : Nat) (word : UInt32) :
    (memory.setWord address word).size = memory.size := size_write _ _ _

/-- A word inside the memory is read back as it was written. -/
theorem word_setWord_same (memory : Memory) {address : Nat} (value : UInt32)
    (hend : address + 4 ≤ memory.size) : (memory.setWord address value).word address = value := by
  have hslice := slice_write memory address (wordBytes value) (by simpa using hend)
  rw [length_wordBytes] at hslice
  rw [word, setWord, wordSize, hslice, ofNat_littleEndian_wordBytes]

theorem byte_setWord_of_outside (memory : Memory) {address other : Nat} (value : UInt32)
    (h : other < address ∨ address + 4 ≤ other) :
    (memory.setWord address value).byte other = memory.byte other :=
  byte_write_of_outside memory address _ (by simpa using h)

/-- A write elsewhere does not disturb a word. -/
theorem word_write_of_disjoint (memory : Memory) (start : Nat) (values : List UInt8) {address : Nat}
    (h : address + 4 ≤ start ∨ start + values.length ≤ address) :
    (memory.write start values).word address = memory.word address :=
  word_congr fun _ _ _ => byte_write_of_outside memory start values (by omega)

/-- Setting a word elsewhere does not disturb a word. -/
theorem word_setWord_of_disjoint (memory : Memory) {address other : Nat} (value : UInt32)
    (h : other + 4 ≤ address ∨ address + 4 ≤ other) :
    (memory.setWord address value).word other = memory.word other :=
  word_write_of_disjoint memory address _ (by simpa using h)

@[simp] theorem word_extend (memory : Memory) (count address : Nat) :
    (memory.extend count).word address = memory.word address := rfl

end Memory

end BoundaryTag
