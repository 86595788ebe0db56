import BoundaryTag.Proofs.Layout.Held
import Mathlib.Data.List.SplitBy

/-!
# Runs of free blocks

`coalesced` says without recursion what merging does: cut the blocks into runs, as long as possible,
within which all neighbours are free, and make one block of each run (`mergeFree_eq_coalesced`).
Marking some blocks as free and merging once is the same as marking and merging one after the other,
in any order, which rests on `mergeFree_map_mergeFree`: blocks that were merged too early are merged
with the others all the same.
-/

namespace BoundaryTag

variable {first stop : Nat} {blocks rest : List Block} {block next : Block}

/-! ## The closed form -/

namespace Block

/-- Whether both blocks are free. -/
def bothFree (first second : Block) : Bool := !first.allocated && !second.allocated

/-- A run of blocks as one block: it starts where the first one starts, and has the bytes of all. -/
def ofRun : List Block → Option Block
  | [] => none
  | block :: blocks =>
      some ⟨block.address, totalSize (block :: blocks), block.allocated⟩

end Block

/-- The blocks with every maximal run of neighbouring free blocks made one free block. -/
def coalesced (blocks : List Block) : List Block :=
  (blocks.splitBy Block.bothFree).filterMap Block.ofRun

/-- What is related to the first element of the first run joins it. -/
theorem splitBy_cons_of_related {α : Type} {related : α → α → Bool} {a b : α} {l run : List α}
    {runs : List (List α)} (hrelated : related a b = true)
    (hsplit : (b :: l).splitBy related = (b :: run) :: runs) :
    (a :: b :: l).splitBy related = (a :: b :: run) :: runs := by
  obtain ⟨hflatten, hnil, hruns, hbetween⟩ := List.splitBy_eq_iff.1 hsplit
  rw [List.forall_mem_cons] at hruns
  refine List.splitBy_eq_iff.2 ⟨by rw [hflatten]; rfl, ?_, ?_, ?_⟩
  · simpa using hnil
  · exact List.forall_mem_cons.2 ⟨List.isChain_cons_cons.2 ⟨hrelated, hruns.1⟩, hruns.2⟩
  · exact hbetween.imp_head fun {next} ⟨hrun, hnext, hlast⟩ =>
      ⟨by simp, hnext, by simpa using hlast⟩

/-- The runs of a list that is not empty begin with a run that begins as the list does. -/
theorem exists_splitBy_cons {α : Type} (related : α → α → Bool) (a : α) (l : List α) :
    ∃ run runs, (a :: l).splitBy related = (a :: run) :: runs := by
  have hhead := List.head_head_splitBy related (List.cons_ne_nil a l)
  cases hsplit : (a :: l).splitBy related with
  | nil => exact absurd hsplit (List.splitBy_ne_nil.2 (List.cons_ne_nil a l))
  | cons run runs =>
      simp only [hsplit, List.head_cons] at hhead
      cases run with
      | nil => exact absurd (hsplit ▸ List.mem_cons_self) (List.nil_notMem_splitBy related (a :: l))
      | cons other run =>
          obtain rfl : other = a := hhead
          exact ⟨run, runs, rfl⟩

/-- Merging makes one block of each maximal run of free blocks. -/
theorem mergeFree_eq_coalesced (blocks : List Block) : mergeFree blocks = coalesced blocks := by
  induction blocks with
  | nil => rfl
  | cons block blocks ih =>
      cases blocks with
      | nil =>
          simp [mergeFree, coalesced, List.splitBy, List.splitBy.loop, Block.ofRun, Block.totalSize]
      | cons next blocks =>
          obtain ⟨run, runs, hsplit⟩ := exists_splitBy_cons Block.bothFree next blocks
          have hmerge : mergeFree (next :: blocks) =
              ⟨next.address, Block.totalSize (next :: run), next.allocated⟩ ::
                runs.filterMap Block.ofRun := by
            rw [ih, coalesced, hsplit]
            rfl
          rw [mergeFree, hmerge, coalesced]
          by_cases hfree : Block.bothFree block next = true
          · have hflags : block.allocated = false ∧ next.allocated = false := by
              simpa [Block.bothFree] using hfree
            rw [splitBy_cons_of_related hfree hsplit]
            simp [hflags, Block.ofRun, Block.join, Block.totalSize]
          · have happend : (block :: next :: blocks).splitBy Block.bothFree =
                [block] :: (next :: blocks).splitBy Block.bothFree :=
              List.splitBy_append_cons (l := [block]) blocks (by simpa using hfree)
            have hflags : (block.allocated || next.allocated) = true := by
              simpa [Block.bothFree, Bool.or_eq_true, imp_iff_not_or] using hfree
            rw [happend, hsplit]
            simp [hflags, Block.ofRun, Block.totalSize]

/-! ## Merging in stages -/

/-- What merging makes of a list rests on what it makes of the tail. -/
theorem mergeFree_cons_congr {others : List Block} (h : mergeFree blocks = mergeFree others)
    (block : Block) : mergeFree (block :: blocks) = mergeFree (block :: others) := by
  rw [mergeFree, mergeFree, h]

/-- Two free blocks in front may be joined first. -/
theorem mergeFree_join_cons (hblock : block.allocated = false) (hnext : next.allocated = false)
    (rest : List Block) :
    mergeFree (block.join next :: rest) = mergeFree (block :: next :: rest) := by
  have hjoin : (block.join next).allocated = false := rfl
  cases hmerge : mergeFree rest with
  | nil => simp [mergeFree, hmerge, hblock, hnext]
  | cons other others =>
      cases hother : other.allocated with
      | true => simp [mergeFree, hmerge, hblock, hnext, hother]
      | false =>
          have hinner := mergeFree_cons_of_free hmerge hnext hother
          have hinnerJoin : (next.join other).allocated = false := rfl
          rw [mergeFree_cons_of_free hmerge hjoin hother,
            mergeFree_cons_of_free hinner hblock hinnerJoin]
          simp [Block.join, Nat.add_assoc]

/-- Merging before a change that leaves free blocks alone makes no difference. -/
theorem mergeFree_map_mergeFree {change : Block → Block}
    (hchange : ∀ block : Block, block.allocated = false → change block = block)
    (blocks : List Block) :
    mergeFree ((mergeFree blocks).map change) = mergeFree (blocks.map change) := by
  induction blocks with
  | nil => rfl
  | cons block blocks ih =>
      rw [mergeFree]
      split
      next hnil =>
        rw [hnil] at ih
        exact mergeFree_cons_congr ih (change block)
      next next rest hcons =>
        rw [hcons] at ih
        split
        next => exact mergeFree_cons_congr ih (change block)
        next hfree =>
          simp only [Bool.or_eq_true, not_or, Bool.not_eq_true] at hfree
          obtain ⟨hblock, hnext⟩ := hfree
          have hjoin : change (block.join next) = block.join next := hchange _ rfl
          rw [List.map_cons, hchange next hnext] at ih
          calc mergeFree (change (block.join next) :: rest.map change)
              = mergeFree (block :: next :: rest.map change) := by
                rw [hjoin, mergeFree_join_cons hblock hnext]
            _ = mergeFree (block :: blocks.map change) := mergeFree_cons_congr ih block
            _ = mergeFree (change block :: blocks.map change) := by rw [hchange block hblock]

/-- A chain of free blocks becomes one block. -/
theorem Tiles.mergeFree_of_free (h : Tiles first blocks stop) (hlt : first < stop)
    (hfree : ∀ block ∈ blocks, block.allocated = false) :
    BoundaryTag.mergeFree blocks = [⟨first, stop - first, false⟩] := by
  have htiles := h.mergeFree
  have hmerged : ∀ block ∈ BoundaryTag.mergeFree blocks, block.allocated = false := by
    intro block hblock
    have hnone : (BoundaryTag.mergeFree blocks).filter (·.allocated) = [] := by
      rw [filter_allocated_mergeFree, List.filter_eq_nil_iff]
      simpa using hfree
    simpa using List.filter_eq_nil_iff.1 hnone block hblock
  have hapart := isChain_mergeFree blocks
  -- two blocks would stand side by side, and none at all would not reach the end
  cases hcase : BoundaryTag.mergeFree blocks with
  | nil =>
      rw [hcase, tiles_nil] at htiles
      omega
  | cons block others =>
      rw [hcase] at htiles hmerged hapart
      rw [List.forall_mem_cons] at hmerged
      cases others with
      | cons other others =>
          have hother := hmerged.2 other List.mem_cons_self
          have hboth := (List.isChain_cons_cons.1 hapart).1
          rw [Block.Apart, hmerged.1, hother] at hboth
          simp at hboth
      | nil =>
          obtain ⟨haddress, -, hend⟩ := tiles_cons.1 htiles
          rw [tiles_nil, Block.stop] at hend
          obtain ⟨address, size, allocated⟩ := block
          dsimp only at haddress hend hmerged ⊢
          rw [List.cons.injEq, Block.mk.injEq]
          exact ⟨⟨haddress, by omega, hmerged.1⟩, rfl⟩

/-! ## Freeing some blocks -/

namespace Block

/-- The block, marked as free if its address is among these. -/
def markFreeIn (freed : List Nat) (block : Block) : Block :=
  if block.address ∈ freed then { block with allocated := false } else block

theorem markFreeIn_of_free (freed : List Nat) (hfree : block.allocated = false) :
    markFreeIn freed block = block := by
  unfold markFreeIn
  split
  · rw [← hfree]
  · rfl

theorem markFreeIn_cons (address : Nat) (freed : List Nat) (block : Block) :
    markFreeIn (address :: freed) block = markFreeIn freed (markFree address block) := by
  unfold markFreeIn markFree
  by_cases heq : block.address = address
  · simp [heq]
  · simp [heq]

end Block

/-- Marking blocks as free moves none of them. -/
theorem Tiles.map_markFreeIn (h : Tiles first blocks stop) (freed : List Nat) :
    Tiles first (blocks.map (Block.markFreeIn freed)) stop := by
  induction blocks generalizing first with
  | nil => exact h
  | cons block blocks ih =>
      obtain ⟨haddress, hpos, hrest⟩ := tiles_cons.1 h
      have hsame : (Block.markFreeIn freed block).address = block.address ∧
          (Block.markFreeIn freed block).size = block.size := by
        unfold Block.markFreeIn
        split <;> exact ⟨rfl, rfl⟩
      refine tiles_cons.2 ⟨hsame.1.trans haddress, hsame.2 ▸ hpos, ?_⟩
      rw [Block.stop, hsame.1, hsame.2]
      exact ih hrest

namespace Layout

/-- Freeing blocks one after the other merges what marking them all leaves. -/
theorem blocks_foldl_release (freed : List Nat) (layout : Layout)
    (hapart : layout.blocks.IsChain Block.Apart) :
    (freed.foldl release layout).blocks =
      mergeFree (layout.blocks.map (Block.markFreeIn freed)) := by
  induction freed generalizing layout with
  | nil =>
      have hid : layout.blocks.map (Block.markFreeIn []) = layout.blocks :=
        (List.map_congr_left fun block _ => if_neg List.not_mem_nil).trans (List.map_id' _)
      rw [hid, mergeFree_of_isChain hapart]
      rfl
  | cons address freed ih =>
      have hrelease : (layout.release address).blocks =
          mergeFree (layout.blocks.map (Block.markFree address)) := rfl
      have hmark : Block.markFreeIn (address :: freed) =
          Block.markFreeIn freed ∘ Block.markFree address :=
        funext (Block.markFreeIn_cons address freed)
      rw [List.foldl_cons, ih _ (hrelease ▸ isChain_mergeFree _), hrelease,
        mergeFree_map_mergeFree fun _ => Block.markFreeIn_of_free freed, List.map_map, hmark]

/-- Freeing blocks moves the end of the heap nowhere. -/
theorem stop_foldl_release (freed : List Nat) (layout : Layout) :
    (freed.foldl release layout).stop = layout.stop := by
  induction freed generalizing layout with
  | nil => rfl
  | cons address freed ih => exact ih (layout.release address)

/-- When all allocated blocks are to be freed, all blocks are. -/
theorem forall_free_markFreeIn {layout : Layout} {freed : List Nat}
    (hall : layout.allocated ⊆ freed) :
    ∀ block ∈ layout.blocks.map (Block.markFreeIn freed), block.allocated = false := by
  intro block hblock
  obtain ⟨old, hold, rfl⟩ := List.mem_map.1 hblock
  cases hallocated : old.allocated with
  | false => rw [Block.markFreeIn_of_free freed hallocated, hallocated]
  | true =>
      have hfreed : old.address ∈ freed :=
        hall (List.mem_map_of_mem (Layout.mem_held.2 ⟨hold, hallocated⟩))
      rw [Block.markFreeIn, if_pos hfreed]

end Layout

end BoundaryTag
