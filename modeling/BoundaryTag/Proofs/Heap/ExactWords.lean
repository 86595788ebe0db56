import BoundaryTag.Heap.FreeList
import BoundaryTag.Heap.Lemmas

/-!
# No word drops a bit

A word has 32 bits, and an address or a size may have more. `Heap.Lossless` says that none of the
words that a heap writes is too small for what it stands for. For links it is said of the writes
themselves: `Heap.enlistBy` and `Heap.delistBy` are the two actions on the free list with the way in
which a link is written left open, and with writes that stop at a link that does not fit in a word,
they do the same. An action that writes to a block finds it inside of the memory, so all of this
holds of a memory that is not too large (`Heap.lossless_of_stop_le`).
-/

namespace BoundaryTag

open HeapM

variable {σ : Type} {heap after : Heap σ} {offset bp : Nat} {link : Option Nat}

/-! ## What fits in a word -/

/-- The word of a link keeps all bits of the address. -/
def FitsWord (link : Option Nat) : Prop := (wordOfLink link).toNat = link.getD 0

theorem fitsWord_of_lt (h : ∀ bp ∈ link, bp < 0x1_0000_0000) : FitsWord link := by
  cases link with
  | none => rfl
  | some bp =>
      have hlt : bp < 0x1_0000_0000 := h bp rfl
      simp only [FitsWord, wordOfLink, Option.getD_some, UInt32.toNat_ofNat']
      omega

theorem fitsWord_none : FitsWord none := rfl

/-- A link that was read from a word fits in one. -/
theorem fitsWord_linkOfWord (word : UInt32) : FitsWord (linkOfWord word) := by
  refine fitsWord_of_lt fun bp hbp => ?_
  rw [linkOfWord] at hbp
  split at hbp
  · cases hbp
  · obtain rfl : word.toNat = bp := Option.some.inj hbp
    exact word.toNat_lt

/-- A tag that can be packed says what it was packed from. -/
theorem Tag.decode_of_pack {size : Nat} {allocated : Bool} {tag : Tag}
    (h : Tag.pack size allocated = .ok tag) : tag.decode = (size, allocated) := by
  obtain ⟨haligned, hfits, rfl⟩ := eq_of_pack h
  rw [decode, size_ofSize haligned hfits, allocated_ofSize haligned]

theorem fitsWord_of_linkAt (h : heap.linkAt offset = .ok link) : FitsWord link := by
  rw [Heap.linkAt] at h
  obtain ⟨word, -, hlink⟩ := exists_of_bind_eq_ok h
  obtain rfl : linkOfWord word = link := Except.ok.inj hlink
  exact fitsWord_linkOfWord word

namespace Heap

/-! ## Checked link writes -/

instance (link : Option Nat) : Decidable (FitsWord link) := inferInstanceAs (Decidable (_ = _))

/-- Write a link, unless its word would drop a bit of the address. -/
def setLinkExactly (offset : Nat) (link : Option Nat) : HeapM σ Unit :=
  if FitsWord link then setLinkAt offset link else fault .overflow

/-- Put a block in front of the free list, with links that are written in this way. -/
def enlistBy (setLink : Nat → Option Nat → HeapM σ Unit) (bp : Nat) : HeapM σ Unit := do
  let head := (← get).free.head
  setLink bp none
  setLink (bp + wordSize) head
  if let some old := head then setLink old (some bp)
  modify fun heap => { heap with free := ⟨some bp, heap.free.count + 1⟩ }

/-- Take a block out of the free list and clear its links, with links that are written in this
way. -/
def delistBy (setLink : Nat → Option Nat → HeapM σ Unit) (bp : Nat) : HeapM σ Unit := do
  let before ← observe (·.predecessor bp)
  let after ← observe (·.successor bp)
  match before with
  | none =>
      if (← get).free.head ≠ some bp then fault (.notListed bp)
      modify ({ · with free.head := after })
  | some before => setLink (before + wordSize) after
  if let some after := after then setLink after before
  setLink bp none
  setLink (bp + wordSize) none
  let count ← observe fun heap => Address.sub heap.free.count 1
  modify ({ · with free.count := count })

/-- With the link write of the heap, this is how the heap lists a block. -/
theorem enlistBy_setLinkAt (bp : Nat) : (enlistBy setLinkAt bp : HeapM σ Unit) = enlist bp := rfl

/-- With the link write of the heap, this is how the heap takes a block out of its list. -/
theorem delistBy_setLinkAt (bp : Nat) : (delistBy setLinkAt bp : HeapM σ Unit) = delist bp := rfl

/-- A link that fits in a word is written. -/
theorem setLinkExactly_of_fits (h : FitsWord link) :
    (setLinkExactly offset link : HeapM σ Unit) = setLinkAt offset link :=
  if_pos h

/-- On every heap that is no larger than this one, no word that is written drops a bit of what it
stands for: neither the links that a block gets when it is listed, nor those that it leaves to its
neighbours when it is taken out, nor the size of a block. So nothing is lost by writing only links
that fit. -/
structure Lossless (heap : Heap σ) : Prop where
  enlist (stage after : Heap σ) (bp : Nat) (hstage : stage.stop ≤ heap.stop)
    (hrun : (enlist bp).run stage = .ok () after) : FitsWord (some bp) ∧ FitsWord stage.free.head
  enlist_exactly (stage after : Heap σ) (bp : Nat) (hstage : stage.stop ≤ heap.stop)
    (hrun : (Heap.enlist bp).run stage = .ok () after) :
    (enlistBy setLinkExactly bp).run stage = .ok () after
  delist (stage : Heap σ) (bp : Nat) (link : Option Nat)
    (hread : stage.predecessor bp = .ok link ∨ stage.successor bp = .ok link) : FitsWord link
  delist_exactly (stage : Heap σ) (bp : Nat) :
    (delistBy setLinkExactly bp).run stage = (Heap.delist bp).run stage
  setTags (stage after : Heap σ) (bp size : Nat) (allocated : Bool)
    (hrun : (setTags bp size allocated).run stage = .ok () after) :
    ∃ tag, Tag.pack size allocated = .ok tag ∧ tag.decode = (size, allocated) ∧
      after.header bp = .ok tag

/-- A word is written inside of the memory only. -/
theorem run_setWordAt_inv {word : UInt32} (h : (setWordAt offset word).run heap = .ok () after) :
    offset + 4 ≤ heap.memory.size ∧
      after = heap.withMemory (heap.memory.setWord offset word) := by
  by_cases hinside : offset + 4 ≤ heap.memory.size
  · rw [run_setWordAt hinside] at h
    exact ⟨hinside, (EStateM.Result.ok.inj h).2.symm⟩
  · replace h : (if offset + 4 ≤ heap.memory.size then _ else _) = _ := h
    rw [if_neg hinside] at h
    cases h

/-- A block that could be listed lies inside of the memory, and so does the one that was first. -/
theorem inside_of_enlist (h : (enlist bp).run heap = .ok () after) :
    bp < heap.memory.size ∧ ∀ old ∈ heap.free.head, old < heap.memory.size := by
  rw [enlist, run_bind_of_ok (run_get heap)] at h
  obtain ⟨_, first, hfirst, h⟩ := exists_of_run_bind h
  obtain ⟨hbp, rfl⟩ := run_setWordAt_inv hfirst
  obtain ⟨_, second, hsecond, h⟩ := exists_of_run_bind h
  obtain ⟨-, rfl⟩ := run_setWordAt_inv hsecond
  refine ⟨by omega, fun old hold => ?_⟩
  rw [Option.mem_def] at hold
  simp only [hold] at h
  obtain ⟨_, third, hthird, -⟩ := exists_of_run_bind h
  have hold := (run_setWordAt_inv hthird).1
  simp only [memory_withMemory, Memory.size_setWord] at hold
  omega

/-- A block that was listed on a heap that fits in 32 bits has an address that fits in a word, and
so has the block that was first. -/
theorem fitsWord_of_enlist (hstop : heap.stop ≤ heapLimit)
    (h : (enlist bp).run heap = .ok () after) : FitsWord (some bp) ∧ FitsWord heap.free.head := by
  obtain ⟨hbp, hold⟩ := inside_of_enlist h
  have hlimit : heap.memory.size < 0x1_0000_0000 := by
    simp only [stop, heapLimit] at hstop
    omega
  exact ⟨fitsWord_of_lt (by rintro _ ⟨⟩; omega), fitsWord_of_lt fun old hmem =>
    Nat.lt_trans (hold old hmem) hlimit⟩

/-- Listing a block writes no link but its own address, the old head and none. -/
theorem run_enlistBy_exactly (hbp : FitsWord (some bp)) (hhead : FitsWord heap.free.head) :
    (enlistBy setLinkExactly bp).run heap = (enlist bp).run heap := by
  rw [← enlistBy_setLinkAt, enlistBy, enlistBy, run_bind_of_ok (run_get heap),
    run_bind_of_ok (run_get heap)]
  simp only [setLinkExactly_of_fits hbp, setLinkExactly_of_fits hhead,
    setLinkExactly_of_fits fitsWord_none]

/-- Taking a block out writes no link but those that were read from it and none. -/
theorem run_delistBy_exactly (heap : Heap σ) (bp : Nat) :
    (delistBy setLinkExactly bp).run heap = (delist bp).run heap := by
  rw [← delistBy_setLinkAt, delistBy, delistBy]
  cases hbefore : heap.predecessor bp with
  | error cause =>
      have hrun : (observe (·.predecessor bp)).run heap = .error (.fault cause) heap :=
        run_observe_of_error hbefore
      rw [run_bind_of_error hrun, run_bind_of_error hrun]
  | ok before =>
      have hrun : (observe (·.predecessor bp)).run heap = .ok before heap :=
        run_observe_of_ok hbefore
      rw [run_bind_of_ok hrun, run_bind_of_ok hrun]
      cases hafter : heap.successor bp with
      | error cause =>
          have hrun : (observe (·.successor bp)).run heap = .error (.fault cause) heap :=
            run_observe_of_error hafter
          rw [run_bind_of_error hrun, run_bind_of_error hrun]
      | ok link =>
          have hrun : (observe (·.successor bp)).run heap = .ok link heap :=
            run_observe_of_ok hafter
          rw [run_bind_of_ok hrun, run_bind_of_ok hrun]
          -- all links that are written from here on were read, or are none
          simp only [setLinkExactly_of_fits (fitsWord_of_linkAt hbefore),
            setLinkExactly_of_fits (fitsWord_of_linkAt hafter),
            setLinkExactly_of_fits fitsWord_none]

/-- The header of a block whose tags were written says what was written, since its footer is
elsewhere. -/
theorem decode_of_run_setTags {size : Nat} {allocated : Bool}
    (h : (setTags bp size allocated).run heap = .ok () after) :
    ∃ tag, Tag.pack size allocated = .ok tag ∧ tag.decode = (size, allocated) ∧
      after.header bp = .ok tag := by
  obtain ⟨tag, htag, h⟩ := exists_of_run_ofExcept_bind h
  obtain ⟨low, hheader, h⟩ := exists_of_run_ofExcept_bind h
  obtain ⟨_, first, hfirst, h⟩ := exists_of_run_bind h
  obtain ⟨high, hfooter, hsecond⟩ := exists_of_run_ofExcept_bind h
  obtain ⟨stop, hstop, hfooter⟩ := exists_of_bind_eq_ok hfooter
  obtain ⟨hbp, rfl⟩ := Address.eq_of_sub hheader
  obtain rfl := Address.eq_of_add hstop
  obtain ⟨hsize, rfl⟩ := Address.eq_of_sub hfooter
  obtain ⟨hinside, rfl⟩ := run_setWordAt_inv hfirst
  obtain ⟨-, rfl⟩ := run_setWordAt_inv hsecond
  have haligned := (Tag.eq_of_pack htag).1
  simp only [wordSize, overhead] at hbp hsize hinside
  refine ⟨tag, htag, Tag.decode_of_pack htag, ?_⟩
  rw [header_of_le hbp (by simp; omega)]
  have hword := heap.memory.word_setWord_same tag.bits hinside
  simp only [memory_withMemory, wordSize, overhead]
  rw [Memory.word_setWord_of_disjoint _ _ (by omega), hword]

/-- A heap that fits in 32 bits has no more addresses and sizes than a word can hold. -/
theorem lossless_of_stop_le (h : heap.stop ≤ heapLimit) : heap.Lossless where
  enlist stage after bp hstage hrun := fitsWord_of_enlist (Nat.le_trans hstage h) hrun
  enlist_exactly stage after bp hstage hrun := by
    obtain ⟨hbp, hhead⟩ := fitsWord_of_enlist (Nat.le_trans hstage h) hrun
    rw [run_enlistBy_exactly hbp hhead, hrun]
  delist stage bp link hread := by
    cases hread with
    | inl hpredecessor => exact fitsWord_of_linkAt hpredecessor
    | inr hsuccessor => exact fitsWord_of_linkAt hsuccessor
  delist_exactly := run_delistBy_exactly
  setTags _ _ _ _ _ hrun := decode_of_run_setTags hrun

end Heap

end BoundaryTag
