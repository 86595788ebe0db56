import BoundaryTag.Proofs.Layout.Coalesce

/-!
# Taking a block and giving it back

In a settled layout, no neighbour of a free block is free. So when a free block was taken, whole or
in part, freeing it joins it with exactly what was left of it, and the only thing that has changed
then is that the block stands in front of the list (`Layout.Offers.release_occupy`). First fit looks
there first (`Layout.firstFit_promote`), and taking the block once more leads to the same layout as
taking it before (`Layout.occupy_promote`).
-/

namespace BoundaryTag

namespace Block

/-- The first bytes of a block as a block of their own. -/
def front (block : Block) (size : Nat) (allocated : Bool) : Block :=
  ⟨block.address, size, allocated⟩

/-- What is left of a block behind its first bytes, as a free block. -/
def rest (block : Block) (size : Nat) : Block := ⟨block.address + size, block.size - size, false⟩

variable {block : Block} {size : Nat}

theorem stop_rest (hsize : size ≤ block.size) : (block.rest size).stop = block.stop := by
  simp only [rest, stop]
  omega

/-- The two parts of a free block make up the block. -/
theorem join_front_rest (hfree : block.allocated = false) (hsize : size ≤ block.size) :
    (block.front size false).join (block.rest size) = block := by
  cases block
  simp only [front, rest, join, Block.mk.injEq, true_and] at hsize ⊢
  exact ⟨by omega, hfree.symm⟩

end Block

/-- A block in a chain can be replaced by its two parts. -/
theorem Tiles.split {first stop size : Nat} {before after : List Block} {block : Block}
    (h : Tiles first (before ++ block :: after) stop) (hsize : 0 < size) (hrest : size < block.size)
    (allocated : Bool) :
    Tiles first (before ++ block.front size allocated :: block.rest size :: after) stop := by
  obtain ⟨hbefore, -, hafter⟩ := tiles_append_cons.1 h
  refine tiles_append_cons.2 ⟨hbefore, hsize, tiles_cons.2 ⟨rfl, Nat.sub_pos_of_lt hrest, ?_⟩⟩
  rwa [Block.stop_rest hrest.le]

namespace Layout

/-- The layout with this address in front of its list. -/
def promote (layout : Layout) (address : Nat) : Layout :=
  { layout with order := address :: layout.order.erase address }

/-- The layout in which the first bytes of a block were taken and are free again, while the rest of
it is still a block of its own. -/
def severed (layout : Layout) (before : List Block) (block : Block) (after : List Block)
    (size : Nat) : Layout :=
  { layout with
    blocks := before ++ block.front size false :: block.rest size :: after
    order := (block.rest size).address :: layout.order.erase block.address }

/-- An orderly layout has this block, which is free and can be taken. -/
structure Offers (layout : Layout) (first : Nat) (block : Block) : Prop
    extends layout.Orderly first where
  mem : block ∈ layout.blocks
  free : block.allocated = false

variable {layout : Layout} {before after : List Block} {block : Block}
  {first size minBlock : Nat}

namespace Offers

/-- Next to a block that can be taken there is no free block. -/
theorem neighbours (h : layout.Offers first block)
    (hblocks : layout.blocks = before ++ block :: after) :
    (∀ previous ∈ before.getLast?, previous.allocated = true) ∧
      ∀ next ∈ after.head?, next.allocated = true := by
  have hapart := h.settled.apart
  rw [hblocks] at hapart
  obtain ⟨-, hafter, hbetween⟩ := List.isChain_append.1 hapart
  constructor
  · intro previous hprevious
    have hor := hbetween previous hprevious block rfl
    simpa [Block.Apart, h.free] using hor
  · intro next hnext
    have hor := (List.isChain_cons.1 hafter).1 next hnext
    simpa [Block.Apart, h.free] using hor

/-- Once the block has left the list, the other free blocks are still on it. -/
theorem mem_erase (h : layout.Offers first block)
    (hblocks : layout.blocks = before ++ block :: after) :
    ∀ other ∈ before ++ after, other.allocated = false →
      other.address ∈ layout.order.erase block.address := by
  intro other hother hfree
  have htiles := h.tiles
  rw [hblocks] at htiles
  have hmem : other ∈ layout.blocks := by
    rw [hblocks]
    simp only [List.mem_append, List.mem_cons] at hother ⊢
    tauto
  exact (List.mem_erase_of_ne (htiles.address_ne hother)).2 (h.mem_order hmem hfree)

/-- A block that was taken whole is what it was before once it is settled, and stands in front. -/
theorem settle_whole (h : layout.Offers first block) :
    (settle { layout with order := layout.order.erase block.address } block.address).2 =
      layout.promote block.address := by
  obtain ⟨before, after, hblocks⟩ := List.append_of_mem h.mem
  obtain ⟨hprevious, hnext⟩ := h.neighbours hblocks
  have hapart := h.settled.apart
  rw [hblocks] at hapart
  obtain ⟨hbefore, hafter, -⟩ := List.isChain_append.1 hapart
  have hunlisted : block.address ∉ layout.order.erase block.address := h.order_nodup.not_mem_erase
  have hpending : Pending { layout with order := layout.order.erase block.address }
      before block after :=
    ⟨hblocks, h.free, hunlisted, hbefore, hafter.tail, h.mem_erase hblocks⟩
  have hsettle := (hpending.joins_alone hprevious hnext).settle_eq_putMerged h.tiles
    (h.order_nodup.erase block.address)
    (fun listed hlisted => h.order_free listed (List.mem_of_mem_erase hlisted)) List.mem_cons_self
    (hpending.diff_eq [] [])
  rw [hsettle, putMerged, promote, ← hblocks, List.append_nil, List.diff_nil]

/-- The rest of the block is not among the free blocks that were there before. -/
theorem rest_unlisted (h : layout.Offers first block) (hsize : 0 < size)
    (hrest : size < block.size) :
    (block.rest size).address ∉ layout.order.erase block.address := by
  intro hlisted
  obtain ⟨other, hother, -, haddress⟩ := h.exists_block (List.mem_of_mem_erase hlisted)
  exact h.tiles.address_ne_inside h.mem hother hsize hrest haddress

/-- All entries of the list are still free blocks. -/
theorem order_free_severed (h : layout.Offers first block)
    (hblocks : layout.blocks = before ++ block :: after) (size : Nat) :
    ∀ listed ∈ (layout.severed before block after size).order,
      listed ∈ freeAddresses (layout.severed before block after size).blocks := by
  refine List.forall_mem_cons.2 ⟨mem_freeAddresses.2 ⟨_, by simp [severed], rfl, rfl⟩, ?_⟩
  intro listed hlisted
  obtain ⟨other, hother, hfree, rfl⟩ := h.exists_block (List.mem_of_mem_erase hlisted)
  have hne : other ≠ block := fun heq => h.order_nodup.not_mem_erase (heq ▸ hlisted)
  rw [hblocks] at hother
  refine mem_freeAddresses.2 ⟨other, ?_, hfree, rfl⟩
  simp only [severed, List.mem_append, List.mem_cons] at hother ⊢
  tauto

/-- Only the first bytes are not listed, and may be joined with what follows them. -/
theorem pending_severed (h : layout.Offers first block)
    (hblocks : layout.blocks = before ++ block :: after) (hsize : 0 < size) :
    Pending (layout.severed before block after size) before (block.front size false)
      (block.rest size :: after) := by
  have hapart := h.settled.apart
  rw [hblocks] at hapart
  obtain ⟨hbefore, hafter, -⟩ := List.isChain_append.1 hapart
  have hne : block.address ≠ (block.rest size).address := by
    simp only [Block.rest]
    omega
  refine ⟨rfl, rfl, List.not_mem_cons_of_ne_of_not_mem hne h.order_nodup.not_mem_erase, hbefore,
    isChain_cons_congr h.free.symm hafter, ?_⟩
  intro other hother hfree
  have hlisted := h.mem_erase hblocks other
  simp only [severed, List.mem_append, List.mem_cons] at hother hlisted ⊢
  rcases hother with hbefore | rfl | hafter
  · exact .inr (hlisted (.inl hbefore) hfree)
  · exact .inl rfl
  · exact .inr (hlisted (.inr hafter) hfree)

/-- A block that was split is joined with its rest once it is settled, and stands in front. -/
theorem settle_split (h : layout.Offers first block)
    (hblocks : layout.blocks = before ++ block :: after) (hsize : 0 < size)
    (hrest : size < block.size) :
    (settle (layout.severed before block after size) block.address).2 =
      layout.promote block.address := by
  have htiles := h.tiles
  rw [hblocks] at htiles
  have hpending := h.pending_severed hblocks hsize
  have hjoin := Block.join_front_rest h.free hrest.le
  have hsettle := (hpending.joins_next (h.neighbours hblocks).1 rfl).settle_eq_putMerged
    (htiles.split hsize hrest false)
    (List.nodup_cons.2 ⟨h.rest_unlisted hsize hrest, h.order_nodup.erase _⟩)
    (h.order_free_severed hblocks size) List.mem_cons_self
    (hpending.diff_eq [] [(block.rest size).address])
  show (settle _ (block.front size false).address).2 = layout.promote block.address
  rw [hsettle, putMerged, hjoin, promote, ← hblocks, List.nil_append, severed, List.diff_cons,
    List.erase_cons_head, List.diff_nil]

/-- Freeing a block that was taken leads back to the layout that it was taken from, with the block
in front of the list. -/
theorem release_occupy (h : layout.Offers first block) (hmin : 0 < minBlock) (hsize : 0 < size) :
    (layout.occupy block.address size minBlock).release block.address =
      layout.promote block.address := by
  obtain ⟨before, after, hblocks⟩ := List.append_of_mem h.mem
  have htiles := h.tiles
  rw [hblocks] at htiles
  rw [occupy_of_split hblocks h.tiles, Block.carve, release]
  by_cases hrest : block.size - size ≥ minBlock
  · have hlt : size < block.size := by omega
    have hmark := (htiles.split hsize hlt true).map_markFree
    rw [if_pos hrest, if_pos hrest, ← h.settle_split hblocks hsize hlt]
    exact congrArg (fun blocks => (settle ⟨blocks, _, layout.stop⟩ block.address).2) hmark
  · obtain ⟨hfront, hpos, hback⟩ := tiles_append_cons.1 htiles
    have htaken : Tiles first (before ++ { block with allocated := true } :: after) layout.stop :=
      tiles_append_cons.2 ⟨hfront, hpos, hback⟩
    have hsame : { block with allocated := false } = block := by rw [← h.free]
    have hmark : (before ++ { block with allocated := true } :: after).map
        (Block.markFree block.address) = before ++ block :: after :=
      htaken.map_markFree.trans (congrArg (fun freed => before ++ freed :: after) hsame)
    rw [if_neg hrest, if_neg hrest, ← h.settle_whole, hblocks]
    exact congrArg (fun blocks => (settle ⟨blocks, _, layout.stop⟩ block.address).2) hmark

end Offers

/-- First fit takes the block in front of the list, if it is large enough. -/
theorem firstFit_promote {address : Nat} (hfits : size ≤ layout.sizeAt address) :
    (layout.promote address).firstFit size = some address := by
  rw [firstFit, promote, List.find?_cons_of_pos]
  exact decide_eq_true hfits

/-- Where a block stands in the list does not matter when it is taken. -/
theorem occupy_promote (layout : Layout) (address size minBlock : Nat) :
    (layout.promote address).occupy address size minBlock =
      layout.occupy address size minBlock := by
  have hsizeAt : (layout.promote address).sizeAt address = layout.sizeAt address := rfl
  rw [occupy, occupy, hsizeAt, promote, List.erase_cons_head]

end Layout

end BoundaryTag
