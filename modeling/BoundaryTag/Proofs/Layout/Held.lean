import BoundaryTag.Proofs.Layout.Merge

/-!
# The allocated blocks of a layout

`Layout.held` lists the allocated blocks. Settling leaves them alone (`Layout.held_settle`), taking
a free block adds one to them (`Layout.held_occupy`), and marking a block as free takes one away
(`Layout.held_map_markFree`).
-/

namespace BoundaryTag

namespace Layout

/-- The allocated blocks. -/
def held (layout : Layout) : List Block := layout.blocks.filter (·.allocated)

variable {layout : Layout} {before after : List Block} {block : Block} {first stop : Nat}

theorem mem_held : block ∈ layout.held ↔ block ∈ layout.blocks ∧ block.allocated = true :=
  List.mem_filter

end Layout

/-- Merging joins free blocks only. -/
theorem filter_allocated_mergeFree (blocks : List Block) :
    (mergeFree blocks).filter (·.allocated) = blocks.filter (·.allocated) := by
  induction blocks with
  | nil => rfl
  | cons block blocks ih =>
      have hcons : (block :: blocks).filter (·.allocated) =
          (block :: mergeFree blocks).filter (·.allocated) := by
        rw [List.filter_cons, List.filter_cons, ih]
      rw [hcons, mergeFree]
      split
      next hnil => rw [hnil]
      next next rest hmerge =>
        rw [hmerge]
        split
        next => rfl
        next hfree =>
          simp only [Bool.or_eq_true, not_or, Bool.not_eq_true] at hfree
          simp [Block.join, hfree.1, hfree.2]

namespace Layout

variable {layout : Layout} {before after : List Block} {block : Block} {first stop : Nat}

@[simp] theorem held_settle (layout : Layout) (address : Nat) :
    (layout.settle address).2.held = layout.held :=
  filter_allocated_mergeFree layout.blocks

/-- A free block at the end changes nothing. -/
theorem held_append (layout : Layout) {next : Layout}
    (hblocks : next.blocks = layout.blocks ++ [block]) (hfree : block.allocated = false) :
    next.held = layout.held := by
  rw [held, hblocks, List.filter_append, List.filter_cons_of_neg (by simp [hfree]), held]
  exact List.append_nil _

@[simp] theorem held_expand (layout : Layout) (count : Nat) :
    (layout.expand count).2.held = layout.held := by
  rw [expand, held_settle]
  exact held_append layout rfl rfl

/-- The block that is taken joins the allocated ones; it is as large as was asked for, if the free
block was. -/
theorem held_occupy {size minBlock : Nat} (hblocks : layout.blocks = before ++ block :: after)
    (htiles : Tiles first layout.blocks stop) (hfree : block.allocated = false)
    (hfits : size ≤ block.size) :
    ∃ taken : Block, taken.address = block.address ∧ size ≤ taken.size ∧
      (layout.occupy block.address size minBlock).held.Perm (taken :: layout.held) := by
  have hheld : layout.held = before.filter (·.allocated) ++ after.filter (·.allocated) := by
    rw [held, hblocks, List.filter_append, List.filter_cons_of_neg (by simp [hfree])]
  rw [occupy_of_split hblocks htiles, hheld, Block.carve]
  by_cases hrest : block.size - size ≥ minBlock
  · refine ⟨⟨block.address, size, true⟩, rfl, le_refl _, ?_⟩
    rw [if_pos hrest, if_pos hrest, held, List.filter_append]
    exact List.perm_middle
  · refine ⟨{ block with allocated := true }, rfl, hfits, ?_⟩
    rw [if_neg hrest, if_neg hrest, held, List.filter_append]
    exact List.perm_middle

/-- The block that is marked as free leaves the allocated ones. -/
theorem held_map_markFree (hblocks : layout.blocks = before ++ block :: after)
    (htiles : Tiles first layout.blocks stop) (hallocated : block.allocated = true) :
    layout.held.Perm (block ::
      { layout with blocks := layout.blocks.map (Block.markFree block.address) }.held) := by
  rw [hblocks] at htiles
  rw [held, held, hblocks, htiles.map_markFree, List.filter_append, List.filter_append,
    List.filter_cons_of_pos (by simpa), List.filter_cons_of_neg (by simp)]
  exact List.perm_middle

end Layout

end BoundaryTag
