import BoundaryTag.Heap.Basic

/-!
# How accesses run

Inside the memory every access succeeds, and says on the bytes what its name says. The lemmas of
this module turn reading into `Memory.word` and writing into `Memory.setWord` and
`Memory.write`, so that nobody has to unfold an access again. The main ones are
`Heap.run_setTags`, for the two tags of a block, and `Heap.run_setLinkAt`, for a link.
-/

namespace BoundaryTag

variable {σ : Type} {α β : Type}

/-! ## Links as words -/

/-- A link to an address of 32 bits that is not zero is read back from its word. -/
theorem linkOfWord_wordOfLink {link : Option Nat} (hpos : ∀ bp ∈ link, 0 < bp)
    (hfits : ∀ bp ∈ link, bp < 0x1_0000_0000) : linkOfWord (wordOfLink link) = link := by
  cases link with
  | none => rfl
  | some bp =>
      have hbp : 0 < bp := hpos bp rfl
      have hlt : bp < 0x1_0000_0000 := hfits bp rfl
      have hword : (wordOfLink (some bp)).toNat = bp := by
        simp only [wordOfLink, Option.getD_some, UInt32.toNat_ofNat']
        omega
      have hne : wordOfLink (some bp) ≠ 0 := by
        intro hzero
        rw [hzero] at hword
        simp at hword
        omega
      rw [linkOfWord, if_neg hne, hword]

/-! ## Running actions -/

/-- A computation that does not fault hands its value on. -/
theorem ok_bind {ε : Type} (value : α) (next : α → Except ε β) :
    (Except.ok value >>= next) = next value := rfl

/-- A computation that yields a value is made of computations that do. -/
theorem exists_of_bind_eq_ok {ε : Type} {first : Except ε α} {next : α → Except ε β} {value : β}
    (h : (first >>= next) = .ok value) : ∃ found, first = .ok found ∧ next found = .ok value := by
  cases first with
  | ok found => exact ⟨found, rfl, h⟩
  | error cause => exact nomatch h

/-- A computation that yields a value has not faulted. -/
theorem eq_ok_of_toOption {ε : Type} {result : Except ε α} {value : α}
    (h : result.toOption = some value) : result = .ok value := by
  cases result with
  | ok found => exact congrArg _ (Option.some.inj h)
  | error cause => exact nomatch h

namespace HeapM

/-- An action that succeeds hands its value to the next one. -/
theorem run_bind_of_ok {action : HeapM σ α} {next : α → HeapM σ β} {heap after : Heap σ}
    {value : α} (h : action.run heap = .ok value after) :
    (action >>= next).run heap = (next value).run after := by
  rw [EStateM.run_bind, h]

/-- An action that fails ends everything. -/
theorem run_bind_of_error {action : HeapM σ α} {next : α → HeapM σ β} {heap after : Heap σ}
    {failure : Failure} (h : action.run heap = .error failure after) :
    (action >>= next).run heap = .error failure after := by
  rw [EStateM.run_bind, h]

/-- An action that succeeds is made of actions that succeed. -/
theorem exists_of_run_bind {action : HeapM σ α} {next : α → HeapM σ β} {heap after : Heap σ}
    {value : β} (h : (action >>= next).run heap = .ok value after) :
    ∃ found middle, action.run heap = .ok found middle ∧
      (next found).run middle = .ok value after := by
  cases hrun : action.run heap with
  | ok found middle => exact ⟨found, middle, rfl, run_bind_of_ok hrun ▸ h⟩
  | error failure stopped =>
      rw [run_bind_of_error hrun] at h
      exact nomatch h

/-- Discarding the value of an action keeps its outcome. -/
theorem run_discard_of_ok {action : HeapM σ α} {heap after : Heap σ} {value : α}
    (h : action.run heap = .ok value after) : (discard action).run heap = .ok () after := by
  show EStateM.map _ action heap = _
  rw [EStateM.map, show action heap = .ok value after from h]

theorem run_discard_of_error {action : HeapM σ α} {heap after : Heap σ} {failure : Failure}
    (h : action.run heap = .error failure after) :
    (discard action).run heap = .error failure after := by
  show EStateM.map _ action heap = _
  rw [EStateM.map, show action heap = .error failure after from h]

theorem run_get (heap : Heap σ) : (get : HeapM σ (Heap σ)).run heap = .ok heap heap := rfl

theorem run_modify (change : Heap σ → Heap σ) (heap : Heap σ) :
    (modify change : HeapM σ Unit).run heap = .ok () (change heap) := rfl

/-- Reading keeps the heap. -/
theorem run_observe_of_ok {read : Heap σ → Except Fault α} {heap : Heap σ} {value : α}
    (h : read heap = .ok value) : (observe read).run heap = .ok value heap := by
  show observe read heap = _
  rw [observe, h]

theorem run_observe_of_error {read : Heap σ → Except Fault α} {heap : Heap σ} {cause : Fault}
    (h : read heap = .error cause) : (observe read).run heap = .error (.fault cause) heap := by
  show observe read heap = _
  rw [observe, h]

/-- What comes after reading ran on the same heap. -/
theorem exists_of_run_observe_bind {read : Heap σ → Except Fault α} {next : α → HeapM σ β}
    {heap after : Heap σ} {value : β} (h : (observe read >>= next).run heap = .ok value after) :
    ∃ found, read heap = .ok found ∧ (next found).run heap = .ok value after := by
  cases hread : read heap with
  | ok found => exact ⟨found, rfl, run_bind_of_ok (run_observe_of_ok hread) ▸ h⟩
  | error cause =>
      rw [run_bind_of_error (run_observe_of_error hread)] at h
      exact nomatch h

theorem run_ofExcept_of_ok {result : Except Fault α} {value : α} (h : result = .ok value)
    (heap : Heap σ) : (ofExcept result : HeapM σ α).run heap = .ok value heap := by
  subst h
  rfl

theorem eq_ok_of_run_ofExcept {result : Except Fault α} {value : α} {heap after : Heap σ}
    (h : (ofExcept result : HeapM σ α).run heap = .ok value after) : result = .ok value := by
  cases result with
  | ok found => exact congrArg _ (EStateM.Result.ok.inj h).1
  | error cause => exact nomatch h

/-- What comes after a value that did not have to be looked for ran on the same heap. -/
theorem exists_of_run_ofExcept_bind {result : Except Fault α} {next : α → HeapM σ β}
    {heap after : Heap σ} {value : β} (h : (ofExcept result >>= next).run heap = .ok value after) :
    ∃ found, result = .ok found ∧ (next found).run heap = .ok value after := by
  obtain ⟨found, _, hresult, -⟩ := exists_of_run_bind h
  have hfound := eq_ok_of_run_ofExcept hresult
  exact ⟨found, hfound, run_bind_of_ok (run_ofExcept_of_ok hfound heap) ▸ h⟩

end HeapM

open HeapM

namespace Heap

@[simp] theorem memory_withMemory (heap : Heap σ) (memory : Memory) :
    (heap.withMemory memory).memory = memory := rfl

@[simp] theorem start_withMemory (heap : Heap σ) (memory : Memory) :
    (heap.withMemory memory).start = heap.start := rfl

@[simp] theorem free_withMemory (heap : Heap σ) (memory : Memory) :
    (heap.withMemory memory).free = heap.free := rfl

@[simp] theorem settings_withMemory (heap : Heap σ) (memory : Memory) :
    (heap.withMemory memory).settings = heap.settings := rfl

@[simp] theorem withMemory_withMemory (heap : Heap σ) (first second : Memory) :
    (heap.withMemory first).withMemory second = heap.withMemory second := rfl

/-! ## Reading -/

variable {heap : Heap σ} {bp offset : Nat}

/-- A word inside the memory can be read. -/
theorem wordAt_of_le (h : offset + 4 ≤ heap.memory.size) :
    heap.wordAt offset = .ok (heap.memory.word offset) := if_pos h

/-- A tag inside the memory can be read. -/
theorem tagAt_of_le (h : offset + 4 ≤ heap.memory.size) :
    heap.tagAt offset = .ok ⟨heap.memory.word offset⟩ := by
  rw [tagAt, wordAt_of_le h]
  rfl

/-- A link inside the memory can be read. -/
theorem linkAt_of_le (h : offset + 4 ≤ heap.memory.size) :
    heap.linkAt offset = .ok (linkOfWord (heap.memory.word offset)) := by
  rw [linkAt, wordAt_of_le h]
  rfl

/-- The header is the word below the block pointer. -/
theorem headerOffset_of_le (hlow : 4 ≤ bp) : headerOffset bp = .ok (bp - 4) :=
  Address.sub_of_le hlow

/-- The header of a block inside the memory can be read. -/
theorem header_of_le (hlow : 4 ≤ bp) (hhigh : bp ≤ heap.memory.size) :
    heap.header bp = .ok ⟨heap.memory.word (bp - 4)⟩ := by
  rw [header, headerOffset_of_le hlow]
  exact tagAt_of_le (by omega)

/-- A header that can be read tells the size. -/
theorem blockSize_of_header {tag : Tag} (h : heap.header bp = .ok tag) :
    heap.blockSize bp = .ok tag.size := by
  rw [blockSize, h]
  rfl

/-- A header that can be read tells the flag. -/
theorem isAllocated_of_header {tag : Tag} (h : heap.header bp = .ok tag) :
    heap.isAllocated bp = .ok tag.allocated := by
  rw [isAllocated, h]
  rfl

/-- A range of a payload can be read where the whole payload can, and is that part of it. -/
theorem readPayload_of_payload {bytes : List UInt8} {count : Nat} (h : heap.payload bp = .ok bytes)
    (hrange : offset + count ≤ bytes.length) :
    heap.readPayload bp offset count = .ok ((bytes.drop offset).take count) := by
  rw [payload] at h
  obtain ⟨length, hlength, hread⟩ := exists_of_bind_eq_ok h
  obtain rfl : heap.memory.slice bp length = bytes := Except.ok.inj hread
  rw [Memory.length_slice] at hrange
  rw [readPayload, hlength]
  show (if offset + count ≤ length then _ else _) = _
  rw [if_pos hrange, Memory.take_drop_slice heap.memory hrange]
  rfl

/-! ## Writing -/

/-- Bytes inside the memory can be written. -/
theorem run_writeBytes {bytes : List UInt8} (h : offset + bytes.length ≤ heap.memory.size) :
    (writeBytes offset bytes).run heap =
      .ok () (heap.withMemory (heap.memory.write offset bytes)) := if_pos h

/-- A range inside the memory can be copied to another one inside the memory. -/
theorem run_copyBytes {source target length : Nat} (hsource : source + length ≤ heap.memory.size)
    (htarget : target + length ≤ heap.memory.size) :
    (copyBytes source target length).run heap =
      .ok () (heap.withMemory (heap.memory.copy source target length)) := if_pos ⟨hsource, htarget⟩

/-- The first bytes of a payload can be filled. -/
theorem run_fillPayload {length count : Nat} {value : UInt8}
    (hlength : heap.payloadLength bp = .ok length) (hcount : count ≤ length) :
    (fillPayload bp count value).run heap =
      .ok () (heap.withMemory (heap.memory.fill bp count value)) := by
  rw [fillPayload, run_bind_of_ok (run_observe_of_ok hlength), if_pos hcount]
  rfl

/-- A word inside the memory can be written. -/
theorem run_setWordAt {word : UInt32} (h : offset + 4 ≤ heap.memory.size) :
    (setWordAt offset word).run heap =
      .ok () (heap.withMemory (heap.memory.setWord offset word)) := run_writeBytes h

/-- A tag inside the memory can be written. -/
theorem run_setTagAt {tag : Tag} (h : offset + 4 ≤ heap.memory.size) :
    (setTagAt offset tag).run heap =
      .ok () (heap.withMemory (heap.memory.setWord offset tag.bits)) := run_setWordAt h

/-- A link inside the memory can be written. -/
theorem run_setLinkAt {link : Option Nat} (h : offset + 4 ≤ heap.memory.size) :
    (setLinkAt offset link).run heap =
      .ok () (heap.withMemory (heap.memory.setWord offset (wordOfLink link))) := run_setWordAt h

/-- The two tags of a block inside the memory can be written. -/
theorem run_setTags {size : Nat} {allocated : Bool} (haligned : size % 8 = 0)
    (hfits : size < 0x1_0000_0000) (hlow : 4 ≤ bp) (hbp : bp ≤ heap.memory.size)
    (hfooter : 8 ≤ bp + size) (hend : bp + size ≤ heap.memory.size + 4)
    (hspace : bp + size < addressSpace) :
    (setTags bp size allocated).run heap =
      .ok () (heap.withMemory
        ((heap.memory.setWord (bp - 4) (Tag.ofSize size allocated).bits).setWord (bp + size - 8)
          (Tag.ofSize size allocated).bits)) := by
  have htarget : (do Address.sub (← Address.add bp size) overhead : Except Fault Nat) =
      .ok (bp + size - 8) := by
    rw [Address.add_of_lt hspace]
    exact Address.sub_of_le hfooter
  rw [setTags, run_bind_of_ok (run_ofExcept_of_ok (Tag.pack_of_aligned haligned hfits allocated) _),
    run_bind_of_ok (run_ofExcept_of_ok (headerOffset_of_le hlow) _),
    run_bind_of_ok (run_setTagAt (by omega)), run_bind_of_ok (run_ofExcept_of_ok htarget _),
    run_setTagAt (by simp; omega)]
  rfl

end Heap

end BoundaryTag
