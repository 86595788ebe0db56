import BoundaryTag.Proofs.Layout.Merge

/-!
# Joining one block with its neighbours

`Layout.settle` merges all free blocks of a layout at once, and a heap looks at the two neighbours
of one block only. `Layout.coalesce` is the merge of one block on layouts, case by case as on a
heap. Where only one free block may stand beside others, both are the same
(`Layout.Pending.settle_eq_coalesce`). So freeing a block and growing join at most three blocks in
every layout in which the free blocks are listed and apart: `Layout.Orderly.joinsNeighbours`.
-/

namespace BoundaryTag

namespace Layout

variable {layout : Layout} {before after front rest : List Block} {block merged : Block}
  {first stop count : Nat}

/-! ## The merge of one block -/

/-- Put a free block between these blocks and in front of the list, from which some addresses go.
The answer is the address of the block. -/
def putMerged (layout : Layout) (before : List Block) (merged : Block) (after : List Block)
    (gone : List Nat) : Nat × Layout :=
  (merged.address,
    { layout with
      blocks := before ++ merged :: after
      order := merged.address :: layout.order.diff gone })

/-- Join a free block, which stands between these blocks, with the ones right before it and right
behind it as far as they are free. They leave the list, and the joined block goes in front of it. -/
def coalesce (layout : Layout) (before : List Block) (block : Block) (after : List Block) :
    Nat × Layout :=
  match before.getLast?.filter (!·.allocated), after.head?.filter (!·.allocated) with
  | none, none => layout.putMerged before block after []
  | none, some next => layout.putMerged before (block.join next) after.tail [next.address]
  | some previous, none =>
      layout.putMerged before.dropLast (previous.join block) after [previous.address]
  | some previous, some next =>
      layout.putMerged before.dropLast (previous.join (block.join next)) after.tail
        [previous.address, next.address]

/-- Freeing a block and growing by some bytes join one free block with its neighbours, and change
nothing else. -/
structure JoinsNeighbours (layout : Layout) : Prop where
  release {before after : List Block} {block : Block}
    (hblocks : layout.blocks = before ++ block :: after) (hallocated : block.allocated = true) :
    layout.release block.address =
      (layout.coalesce before { block with allocated := false } after).2
  expand {count : Nat} (hcount : 0 < count) :
    layout.expand count =
      coalesce { layout with stop := layout.stop + count } layout.blocks
        ⟨layout.stop, count, false⟩ []

/-! ## Settling one block -/

/-- A neighbour that is not free is allocated. -/
theorem allocated_of_filter {neighbour : Option Block}
    (h : neighbour.filter (!·.allocated) = none) : ∀ block ∈ neighbour, block.allocated = true := by
  intro block hblock
  simpa using Option.filter_eq_none_iff.1 h block hblock

/-- What settling joins goes in front of the list, which loses the blocks that were on it. -/
theorem Joins.settle_eq_putMerged {run : List Block} (h : layout.Joins front run merged rest)
    (htiles : Tiles first layout.blocks stop) (hnodup : layout.order.Nodup)
    (horder : ∀ listed ∈ layout.order, listed ∈ freeAddresses layout.blocks) (hblock : block ∈ run)
    {gone : List Nat} (hgone : layout.order.diff (run.map (·.address)) = layout.order.diff gone) :
    layout.settle block.address = layout.putMerged front merged rest gone := by
  rw [h.settle_eq htiles hnodup horder hblock, hgone, putMerged]

namespace Pending

/-- The address of the block itself is not on the list, so it need not be taken from there. -/
theorem diff_eq (h : layout.Pending before block after) (listed others : List Nat) :
    layout.order.diff (listed ++ block.address :: others) =
      layout.order.diff (listed ++ others) := by
  have hunlisted : block.address ∉ layout.order.diff listed :=
    fun hmem => h.unlisted (List.diff_subset _ _ hmem)
  rw [List.diff_append, List.diff_cons, List.erase_of_not_mem hunlisted, ← List.diff_append]

/-- Merging all free blocks joins the pending one with its two neighbours. -/
theorem settle_eq_coalesce (h : layout.Pending before block after)
    (htiles : Tiles first layout.blocks stop) (hnodup : layout.order.Nodup)
    (horder : ∀ listed ∈ layout.order, listed ∈ freeAddresses layout.blocks) :
    layout.settle block.address = layout.coalesce before block after := by
  rw [coalesce]
  -- the four cases are those of the merge: which of the two neighbours are free
  cases hprevious : before.getLast?.filter (!·.allocated) with
  | none =>
      have hprevious := allocated_of_filter hprevious
      cases hnext : after.head?.filter (!·.allocated) with
      | none =>
          have hjoins := h.joins_alone hprevious (allocated_of_filter hnext)
          exact hjoins.settle_eq_putMerged htiles hnodup horder (by simp) (h.diff_eq [] [])
      | some next =>
          obtain ⟨hhead, hfree⟩ := Option.filter_eq_some_iff.1 hnext
          obtain ⟨rest, rfl⟩ := List.head?_eq_some_iff.1 hhead
          have hjoins := h.joins_next hprevious (by simpa using hfree)
          exact hjoins.settle_eq_putMerged htiles hnodup horder (by simp)
            (h.diff_eq [] [next.address])
  | some previous =>
      obtain ⟨hlast, hpreviousFree⟩ := Option.filter_eq_some_iff.1 hprevious
      obtain ⟨front, rfl⟩ := List.getLast?_eq_some_iff.1 hlast
      have hfree : previous.allocated = false := by simpa using hpreviousFree
      rw [List.dropLast_concat]
      cases hnext : after.head?.filter (!·.allocated) with
      | none =>
          have hjoins := h.joins_previous hfree (allocated_of_filter hnext)
          exact hjoins.settle_eq_putMerged htiles hnodup horder (by simp)
            (h.diff_eq [previous.address] [])
      | some next =>
          obtain ⟨hhead, hnextFree⟩ := Option.filter_eq_some_iff.1 hnext
          obtain ⟨rest, rfl⟩ := List.head?_eq_some_iff.1 hhead
          have hjoins := h.joins_both hfree (by simpa using hnextFree)
          exact hjoins.settle_eq_putMerged htiles hnodup horder (by simp)
            (h.diff_eq [previous.address] [next.address])

end Pending

/-! ## Freeing and growing -/

namespace Orderly

/-- A free block of the layout has an entry. -/
theorem mem_order (h : layout.Orderly first) (hblock : block ∈ layout.blocks)
    (hfree : block.allocated = false) : block.address ∈ layout.order :=
  h.settled.listed _ (mem_freeAddresses.2 ⟨block, hblock, hfree, rfl⟩)

/-- Every entry is that of a free block of the layout. -/
theorem exists_block (h : layout.Orderly first) {listed : Nat} (hlisted : listed ∈ layout.order) :
    ∃ block ∈ layout.blocks, block.allocated = false ∧ block.address = listed :=
  mem_freeAddresses.1 (h.order_free listed hlisted)

/-- Once it is marked, a freed block is the only one that may have free neighbours. -/
theorem pending_free (h : layout.Orderly first) (hblocks : layout.blocks = before ++ block :: after)
    (hallocated : block.allocated = true) :
    Pending { layout with blocks := before ++ { block with allocated := false } :: after }
      before { block with allocated := false } after := by
  have hmem : block ∈ layout.blocks := by simp [hblocks]
  have hapart := h.settled.apart
  rw [hblocks] at hapart
  obtain ⟨hbefore, hblock, -⟩ := List.isChain_append.1 hapart
  refine ⟨rfl, rfl, fun hlisted => ?_, hbefore, hblock.tail, fun other hother hfree => ?_⟩
  · obtain ⟨other, hother, hfree, haddress⟩ := h.exists_block hlisted
    obtain rfl : other = block := h.tiles.eq_of_address hother hmem haddress
    rw [hallocated] at hfree
    contradiction
  · refine h.mem_order ?_ hfree
    rw [hblocks]
    simp only [List.mem_append, List.mem_cons] at hother ⊢
    tauto

/-- A block at the end is the only one that may have a free block in front of it. -/
theorem pending_append (h : layout.Orderly first) (count : Nat) :
    Pending
      { layout with
        blocks := layout.blocks ++ [⟨layout.stop, count, false⟩]
        stop := layout.stop + count } layout.blocks ⟨layout.stop, count, false⟩ [] where
  blocks_eq := rfl
  free := rfl
  unlisted hlisted := by
    obtain ⟨block, hblock, -, haddress⟩ := h.exists_block hlisted
    have hinside := h.tiles.bounds hblock
    simp only [Block.stop] at hinside haddress
    omega
  apart_before := h.settled.apart
  apart_after := List.isChain_nil
  listed other hother hfree := h.mem_order (by simpa using hother) hfree

/-- Freeing a block joins it with its neighbours. -/
theorem release_eq_coalesce (h : layout.Orderly first)
    (hblocks : layout.blocks = before ++ block :: after) (hallocated : block.allocated = true) :
    layout.release block.address =
      (layout.coalesce before { block with allocated := false } after).2 := by
  have hpending := h.pending_free hblocks hallocated
  have htiles := h.tiles
  rw [hblocks] at htiles
  obtain ⟨hbefore, hsize, hafter⟩ := tiles_append_cons.1 htiles
  have hfreed : Tiles first (before ++ { block with allocated := false } :: after) layout.stop :=
    tiles_append_cons.2 ⟨hbefore, hsize, hafter⟩
  have horder : ∀ listed ∈ layout.order,
      listed ∈ freeAddresses (before ++ { block with allocated := false } :: after) := by
    intro listed hlisted
    have hfree := h.order_free listed hlisted
    simp only [hblocks, freeAddresses_append, freeAddresses_cons, hallocated, if_true,
      List.mem_append] at hfree
    simp only [freeAddresses_append, freeAddresses_cons, Bool.false_eq_true, if_false,
      List.mem_append, List.mem_cons]
    tauto
  rw [release, hblocks, htiles.map_markFree]
  exact congrArg Prod.snd (hpending.settle_eq_coalesce hfreed h.order_nodup horder)

/-- Growing joins the new block with the last one. -/
theorem expand_eq_coalesce (h : layout.Orderly first) (hcount : 0 < count) :
    layout.expand count =
      coalesce { layout with stop := layout.stop + count } layout.blocks
        ⟨layout.stop, count, false⟩ [] := by
  have htiles : Tiles first (layout.blocks ++ [⟨layout.stop, count, false⟩])
      (layout.stop + count) := tiles_append_cons.2 ⟨h.tiles, hcount, tiles_nil.2 rfl⟩
  have horder : ∀ listed ∈ layout.order,
      listed ∈ freeAddresses (layout.blocks ++ [⟨layout.stop, count, false⟩]) := by
    intro listed hlisted
    rw [freeAddresses_append]
    exact List.mem_append_left _ (h.order_free listed hlisted)
  exact (h.pending_append count).settle_eq_coalesce htiles h.order_nodup horder

/-- Freeing and growing join one block with its neighbours. -/
theorem joinsNeighbours (h : layout.Orderly first) : layout.JoinsNeighbours where
  release := h.release_eq_coalesce
  expand := h.expand_eq_coalesce

end Orderly

end Layout

end BoundaryTag
