import BoundaryTag.Proofs.Heap.FreeList
import BoundaryTag.Provider.Bounded
import Mathlib.Data.List.Perm.Subperm

/-!
# Editing the free list

The free list is a list: `Heap.run_listEdits` says that putting blocks on it and taking them off, in
any order that makes sense (`ListEdit.LegalFrom`), does to what can be read of it
(`Heap.Spells`) what the same edits do to a list of addresses. It is all the same what the memory
holds otherwise, and where in it the blocks are, as long as their links do not overlap.
-/

namespace BoundaryTag

open HeapM

variable {σ : Type} {heap after : Heap σ} {blocks order before rest : List Nat} {bp : Nat}

/-- A change of the free list. -/
inductive ListEdit where
  | insert (bp : Nat)
  | remove (bp : Nat)
  deriving DecidableEq, Repr

/-- The blocks on both sides of a block in a list. -/
def neighbours (order : List Nat) (bp : Nat) : List Nat :=
  (order.takeWhile (· ≠ bp)).getLast?.toList ++ (order.dropWhile (· ≠ bp)).tail.head?.toList

namespace ListEdit

/-- The block that is put on the list or taken off it. -/
def block : ListEdit → Nat
  | .insert bp | .remove bp => bp

/-- New blocks go in front, and a block is taken out wherever it is. -/
def apply (order : List Nat) : ListEdit → List Nat
  | .insert bp => bp :: order
  | .remove bp => order.erase bp

/-- A block can be put on the list when it is not there, and taken off it when it is. -/
def Legal (order : List Nat) : ListEdit → Prop
  | .insert bp => bp ∉ order
  | .remove bp => bp ∈ order

/-- The blocks whose links change: the block itself and those next to it. -/
def touched (order : List Nat) : ListEdit → List Nat
  | .insert bp => bp :: order.head?.toList
  | .remove bp => bp :: neighbours order bp

/-- The action that makes the change. -/
def action : ListEdit → HeapM σ Unit
  | .insert bp => Heap.enlist bp
  | .remove bp => Heap.delist bp

instance (order : List Nat) : (edit : ListEdit) → Decidable (edit.Legal order)
  | .insert bp => inferInstanceAs (Decidable (bp ∉ order))
  | .remove bp => inferInstanceAs (Decidable (bp ∈ order))

/-- Each change can be made when its turn comes. -/
def LegalFrom : List Nat → List ListEdit → Prop
  | _, [] => True
  | order, edit :: edits => edit.Legal order ∧ LegalFrom (edit.apply order) edits

end ListEdit

namespace Heap

/-- Whatever is read of the free list is what this list has there. -/
structure Spells (heap : Heap σ) (order : List Nat) : Prop where
  freeBlocks_eq : heap.freeBlocks = .ok order
  head_eq : heap.free.head = order.head?
  count_eq : heap.free.count = order.length
  isEmpty_eq : heap.free.isEmpty = order.isEmpty
  predecessor_eq : ∀ before bp rest, order = before ++ bp :: rest →
    heap.predecessor bp = .ok before.getLast?
  successor_eq : ∀ before bp rest, order = before ++ bp :: rest →
    heap.successor bp = .ok rest.head?

/-- One change of the free list led from one heap to another: it was made to the list, no links
changed but those of the block and its neighbours, and a block that was taken off has none left. -/
structure Edited (heap : Heap σ) (order : List Nat) (edit : ListEdit) (after : Heap σ) : Prop where
  spells : after.Spells (edit.apply order)
  edits : heap.Edits after (InSlots (edit.touched order))
  unlinked : ∀ bp, edit = .remove bp →
    after.predecessor bp = .ok none ∧ after.successor bp = .ok none

end Heap

/-! ## Lists of slots -/

namespace Memory.Slots

variable {memory other : Memory}

/-- Some of the blocks, none of them twice, have slots of their own, too. -/
theorem of_subset (h : memory.Slots blocks) (hnodup : order.Nodup) (hsubset : order ⊆ blocks) :
    memory.Slots order where
  pos bp hbp := h.pos bp (hsubset hbp)
  fits bp hbp := h.fits bp (hsubset hbp)
  inside bp hbp := h.inside bp (hsubset hbp)
  apart := hnodup.imp_of_mem fun hfirst hsecond hne =>
    h.disjoint (hsubset hfirst) (hsubset hsecond) hne

/-- Of the memory, only the size matters. -/
theorem congr_size (h : memory.Slots blocks) (hsize : other.size = memory.size) :
    other.Slots blocks :=
  { h with inside := hsize.symm ▸ h.inside }

/-- There are no more slots than bytes. -/
theorem length_le (h : memory.Slots blocks) : blocks.length ≤ memory.size := by
  have hrange : blocks ⊆ List.range memory.size := fun bp hbp => by
    have := h.inside bp hbp
    exact List.mem_range.2 (by omega)
  have hle := (h.nodup.subperm hrange).length_le
  rwa [List.length_range] at hle

end Memory.Slots

theorem neighbours_of_notMem (hnot : bp ∉ before) :
    neighbours (before ++ bp :: rest) bp = before.getLast?.toList ++ rest.head?.toList := by
  have hall : ∀ node ∈ before, decide (node ≠ bp) = true := fun node hnode =>
    decide_eq_true fun heq => hnot (heq ▸ hnode)
  rw [neighbours, List.takeWhile_append_of_pos hall, List.dropWhile_append_of_pos hall,
    List.takeWhile_cons_of_neg (by simp), List.dropWhile_cons_of_neg (by simp), List.append_nil]
  rfl

namespace Heap

/-! ## Reading -/

/-- A list of blocks with slots is read as it is spelled. -/
theorem Lists.spells (h : heap.Lists order) (hslots : heap.memory.Slots order) :
    heap.Spells order where
  freeBlocks_eq := by
    have hlength := hslots.length_le
    rw [freeBlocks, lookAtFree, h.head_eq, follow_eq h.linked hslots.inside (fun _ _ => rfl)
      (by omega), List.map_id', ok_bind, if_pos hlength]
    rfl
  head_eq := h.head_eq
  count_eq := h.count_eq
  isEmpty_eq := by
    rw [FreeList.isEmpty, h.head_eq]
    cases order <;> rfl
  predecessor_eq before bp rest horder := by
    subst horder
    have hinside := hslots.inside bp (by simp)
    have hlink := h.linked.middle.1
    rw [Option.or_none] at hlink
    rw [predecessor_of_le hinside, hlink]
  successor_eq before bp rest horder := by
    subst horder
    have hinside := hslots.inside bp (by simp)
    rw [successor_of_le hinside, h.linked.middle.2]

/-! ## One change -/

namespace Lists

/-- A block that is taken off the list has no links left. -/
theorem unlinked_of_run_delist (h : heap.Lists (before ++ bp :: rest))
    (hslots : heap.memory.Slots (before ++ bp :: rest))
    (hrun : (delist bp).run heap = .ok () after) :
    after.predecessor bp = .ok none ∧ after.successor bp = .ok none := by
  rw [h.run_delist_eq hslots] at hrun
  obtain ⟨-, rfl⟩ := EStateM.Result.ok.inj hrun
  have hinside := hslots.inside bp (by simp)
  obtain ⟨hpredecessor, hsuccessor⟩ :
      (heap.memory.delisted before.getLast? rest.head? bp).link bp = none ∧
        (heap.memory.delisted before.getLast? rest.head? bp).link (bp + wordSize) = none :=
    Memory.link_delisted_self hinside
  refine ⟨?_, ?_⟩
  · rw [predecessor_of_le (by simpa using hinside)]
    exact congrArg _ hpredecessor
  · rw [successor_of_le (by simpa using hinside)]
    exact congrArg _ hsuccessor

/-- A change that can be made is made to the list, and to no other links than it has to be. -/
theorem run_listEdit (h : heap.Lists order) (hnodup : order.Nodup) (hsubset : order ⊆ blocks)
    (hslots : heap.memory.Slots blocks) {edit : ListEdit} (hlegal : edit.Legal order)
    (hblock : edit.block ∈ blocks) :
    ∃ after, edit.action.run heap = .ok () after ∧ after.Lists (edit.apply order) ∧
      (edit.apply order).Nodup ∧ edit.apply order ⊆ blocks ∧ heap.Edited order edit after := by
  cases edit with
  | insert bp =>
      have hnext : (bp :: order).Nodup := List.nodup_cons.2 ⟨hlegal, hnodup⟩
      have hsubset : bp :: order ⊆ blocks := List.cons_subset.2 ⟨hblock, hsubset⟩
      have hown := hslots.of_subset hnext hsubset
      obtain ⟨after, hrun, hlists, hedits⟩ := h.run_enlist hown
      exact ⟨after, hrun, hlists, hnext, hsubset, hlists.spells (hown.congr_size hedits.size_eq),
        hedits, nofun⟩
  | remove bp =>
      obtain ⟨before, rest, rfl⟩ := List.append_of_mem hlegal
      have hown := hslots.of_subset hnodup hsubset
      have hnot : bp ∉ before := fun hmem =>
        (List.nodup_append.1 hnodup).2.2 bp hmem bp List.mem_cons_self rfl
      have herase : (before ++ bp :: rest).erase bp = before ++ rest := by
        rw [List.erase_append_right _ hnot, List.erase_cons_head]
      have hsublist : (before ++ rest).Sublist (before ++ bp :: rest) :=
        (List.sublist_cons_self bp rest).append_left before
      have hnext := hnodup.sublist hsublist
      have hsubset : before ++ rest ⊆ blocks := fun node hnode => hsubset (hsublist.subset hnode)
      obtain ⟨after, hrun, hlists, hedits⟩ := h.run_delist hown
      have hspells := hlists.spells ((hslots.of_subset hnext hsubset).congr_size hedits.size_eq)
      have hlinks := h.unlinked_of_run_delist hown hrun
      simp only [ListEdit.apply, herase]
      refine ⟨after, hrun, hlists, hnext, hsubset, ?_, ?_, ?_⟩
      · rw [ListEdit.apply, herase]
        exact hspells
      · rw [ListEdit.touched, neighbours_of_notMem hnot]
        exact hedits
      · rintro _ ⟨⟩
        exact hlinks

end Lists

/-- A block that is not the first one of the list and has no predecessor is not taken off it. -/
theorem run_delist_of_unlisted (hpredecessor : heap.predecessor bp = .ok none)
    (hhead : heap.free.head ≠ some bp) :
    ∃ cause, (delist bp).run heap = .error (.fault cause) heap ∧
      (bp + 8 ≤ heap.memory.size → cause = .notListed bp) := by
  rw [delist, run_bind_of_ok (run_observe_of_ok hpredecessor)]
  cases hsuccessor : heap.successor bp with
  | error cause =>
      refine ⟨cause, run_bind_of_error (run_observe_of_error hsuccessor), fun hinside => ?_⟩
      rw [successor_of_le hinside] at hsuccessor
      cases hsuccessor
  | ok next =>
      refine ⟨.notListed bp, ?_, fun _ => rfl⟩
      rw [run_bind_of_ok (run_observe_of_ok hsuccessor)]
      dsimp only
      rw [run_bind_of_ok (run_get heap), if_pos hhead]
      rfl

/-! ## Many changes -/

/-- Changes that can be made one after the other are made one after the other. -/
theorem Lists.run_edits (h : heap.Lists order) (hnodup : order.Nodup)
    (hsubset : order ⊆ blocks) (hslots : heap.memory.Slots blocks) {edits : List ListEdit}
    (hlegal : ListEdit.LegalFrom order edits) (hblocks : ∀ edit ∈ edits, edit.block ∈ blocks) :
    ∃ after, (edits.forM ListEdit.action).run heap = .ok () after ∧
      after.Lists (edits.foldl ListEdit.apply order) ∧
      (edits.foldl ListEdit.apply order).Nodup ∧ edits.foldl ListEdit.apply order ⊆ blocks ∧
      after.memory.Slots blocks := by
  induction edits generalizing heap order with
  | nil => exact ⟨heap, rfl, h, hnodup, hsubset, hslots⟩
  | cons edit edits ih =>
      rw [List.forall_mem_cons] at hblocks
      obtain ⟨middle, hfirst, hlists, hnext, hnextSubset, hedited⟩ :=
        h.run_listEdit hnodup hsubset hslots hlegal.1 hblocks.1
      obtain ⟨after, hrun, hafter⟩ := ih hlists hnext hnextSubset
        (hslots.congr_size hedited.edits.size_eq) hlegal.2 hblocks.2
      refine ⟨after, ?_, hafter⟩
      show (edit.action >>= fun _ => edits.forM ListEdit.action).run heap = .ok () after
      rw [run_bind_of_ok hfirst]
      exact hrun

/-- From an empty list, in whatever memory, every sequence of changes that can be made to a list
of addresses can be made to the free list. What is read afterwards is the resulting list, every
further change is made as it should be, and a block that is not on the list and has no predecessor
is not taken off it. -/
theorem run_listEdits (hempty : heap.free = {}) (hslots : heap.memory.Slots blocks)
    {edits : List ListEdit} (hlegal : ListEdit.LegalFrom [] edits)
    (hblocks : ∀ edit ∈ edits, edit.block ∈ blocks) :
    ∃ after, (edits.forM ListEdit.action).run heap = .ok () after ∧
      after.Spells (edits.foldl ListEdit.apply []) ∧
      (∀ edit : ListEdit, edit.Legal (edits.foldl ListEdit.apply []) → edit.block ∈ blocks →
        ∃ next, edit.action.run after = .ok () next ∧
          after.Edited (edits.foldl ListEdit.apply []) edit next) ∧
      ∀ bp ∉ edits.foldl ListEdit.apply [], after.predecessor bp = .ok none →
        ∃ cause, (ListEdit.remove bp).action.run after = .error (.fault cause) after ∧
          (bp + 8 ≤ after.memory.size → cause = .notListed bp) := by
  have hstart : heap.Lists [] := ⟨trivial, by rw [hempty]; rfl, by rw [hempty]; rfl⟩
  obtain ⟨after, hrun, hlists, hnodup, hsubset, hslots⟩ := hstart.run_edits List.nodup_nil
    (List.nil_subset _) hslots hlegal hblocks
  refine ⟨after, hrun, hlists.spells (hslots.of_subset hnodup hsubset),
    fun edit hedit hblock => ?_, fun bp hbp hpredecessor => ?_⟩
  · obtain ⟨next, hnext, -, -, -, hedited⟩ :=
      hlists.run_listEdit hnodup hsubset hslots hedit hblock
    exact ⟨next, hnext, hedited⟩
  · refine run_delist_of_unlisted hpredecessor fun hhead => hbp ?_
    rw [hlists.head_eq] at hhead
    exact List.mem_of_mem_head? hhead

/-- Blocks leave the list from inside, from the end and from the front, and come back. One of them
is not aligned, two share an end, and the memory was full of set bits. -/
theorem run_listEdits_of_reused_blocks : ∃ (heap : Heap Bounded) (edits : List ListEdit),
    heap.free = {} ∧ heap.memory.Slots [3, 16, 24, 40] ∧ heap.memory.byte 44 = 0xff ∧
      edits = [.insert 16, .insert 40, .insert 24, .remove 40, .insert 3, .insert 40, .remove 16,
        .remove 40, .insert 16] ∧
      ListEdit.LegalFrom [] edits ∧ (∀ edit ∈ edits, edit.block ∈ [3, 16, 24, 40]) ∧
      ∃ after, (edits.forM ListEdit.action).run heap = .ok () after ∧
        after.Spells [16, 3, 24] ∧
        (∀ edit : ListEdit, edit.Legal [16, 3, 24] → edit.block ∈ [3, 16, 24, 40] →
          ∃ next, edit.action.run after = .ok () next ∧ after.Edited [16, 3, 24] edit next) ∧
        ∀ bp ∉ [16, 3, 24], after.predecessor bp = .ok none →
          ∃ cause, (ListEdit.remove bp).action.run after = .error (.fault cause) after ∧
            (bp + 8 ≤ after.memory.size → cause = .notListed bp) := by
  let heap : Heap Bounded := raw .standard ⟨⟨64, 64⟩, (Memory.empty 0xff).extend 64⟩
  let edits : List ListEdit := [.insert 16, .insert 40, .insert 24, .remove 40, .insert 3,
    .insert 40, .remove 16, .remove 40, .insert 16]
  have hslots : heap.memory.Slots [3, 16, 24, 40] :=
    ⟨by decide, by decide, by decide, by decide⟩
  have hlegal : ListEdit.LegalFrom [] edits := by
    simp only [edits, ListEdit.LegalFrom]
    decide
  have hblocks : ∀ edit ∈ edits, edit.block ∈ [3, 16, 24, 40] := by decide
  obtain ⟨after, hafter⟩ := run_listEdits rfl hslots hlegal hblocks
  exact ⟨heap, edits, rfl, hslots, rfl, rfl, hlegal, hblocks, after, hafter⟩

end Heap

end BoundaryTag
