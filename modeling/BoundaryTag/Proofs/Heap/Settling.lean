import BoundaryTag.Proofs.Heap.Sound

/-!
# Settling

When one free block of a sound heap is unlisted and may stand beside free blocks, `Heap.settle`
makes the layout what `Layout.settle` makes of it: `Heap.Sound.run_settle`. The neighbours are found
from the tags alone (`Heap.Sound.block_before` and `Heap.Sound.block_after`); each of the four cases
then delists the free ones among them and writes the tags of the joined block.
-/

namespace BoundaryTag

open HeapM

variable {σ : Type} {heap middle : Heap σ} {layout : Layout} {before after run : List Block}
  {block merged : Block}

namespace Heap.Sound

/-- In front of a block is a free block or something allocated, the prologue at the latest. -/
theorem block_before (h : heap.Sound layout) (hblocks : layout.blocks = before ++ block :: after) :
    ∃ previous, heap.blockBefore block.address = .ok previous ∧
      ((heap.isAllocated previous = .ok true ∧
          ∀ other ∈ before.getLast?, other.allocated = true) ∨
        ∃ front other, before = front ++ [other] ∧ other.allocated = false ∧
          other.stop = block.address ∧ other.address = previous ∧
          heap.isAllocated previous = .ok false) := by
  have htiles := h.tiles
  rw [hblocks] at htiles
  obtain ⟨hbefore, -, -⟩ := tiles_append_cons.1 htiles
  rcases List.eq_nil_or_concat before with rfl | ⟨front, other, rfl⟩
  · have haddress : heap.start + 8 = block.address := tiles_nil.1 hbefore
    rw [← haddress]
    exact ⟨_, h.blockBefore_first, .inl ⟨h.isAllocated_start, by simp⟩⟩
  · rw [List.concat_eq_append] at *
    obtain ⟨-, -, hstop⟩ := tiles_append_cons.1 hbefore
    have hother : other ∈ layout.blocks := by simp [hblocks]
    have hallocated := h.isAllocated_eq hother
    have hstop := tiles_nil.1 hstop
    rw [← hstop]
    refine ⟨_, h.blockBefore_eq hother, ?_⟩
    cases hflag : other.allocated with
    | true => exact .inl ⟨hflag ▸ hallocated, by simpa using hflag⟩
    | false => exact .inr ⟨front, other, rfl, hflag, rfl, rfl, hflag ▸ hallocated⟩

/-- Behind a block is a free block or something allocated, the epilogue at the latest. -/
theorem block_after (h : heap.Sound layout) (hblocks : layout.blocks = before ++ block :: after) :
    heap.blockAfter block.address = .ok block.stop ∧
      ((heap.isAllocated block.stop = .ok true ∧
          ∀ other ∈ after.head?, other.allocated = true) ∨
        ∃ other rest, after = other :: rest ∧ other.allocated = false ∧
          other.address = block.stop ∧ heap.isAllocated block.stop = .ok false) := by
  have htiles := h.tiles
  rw [hblocks] at htiles
  obtain ⟨-, -, hafter⟩ := tiles_append_cons.1 htiles
  refine ⟨h.blockAfter_eq (by simp [hblocks]), ?_⟩
  cases after with
  | nil =>
      rw [tiles_nil.1 hafter]
      exact .inl ⟨h.isAllocated_stop, by simp⟩
  | cons other rest =>
      obtain ⟨haddress, -, -⟩ := tiles_cons.1 hafter
      have hother : other ∈ layout.blocks := by simp [hblocks]
      have hallocated := h.isAllocated_eq hother
      rw [haddress] at hallocated
      cases hflag : other.allocated with
      | true => exact .inl ⟨hflag ▸ hallocated, by simpa using hflag⟩
      | false => exact .inr ⟨other, rest, rfl, hflag, haddress, hflag ▸ hallocated⟩

/-- Once the run is one block that is not listed, enlisting it ends the operation. -/
theorem run_settle_enlist (h : heap.Sound layout) (hjoins : layout.Joins before run merged after)
    (hmiddle : middle.Sound
      { layout with
        blocks := before ++ merged :: after
        order := layout.order.diff (run.map (·.address)) })
    (hedits : heap.Edits middle fun address =>
      layout.Bookkeeping address ∨ merged.InTags address)
    (hblock : block ∈ run) :
    ∃ settled, (do enlist merged.address; return merged.address : HeapM σ Nat).run middle =
        .ok (layout.settle block.address).1 settled ∧
      settled.Sound (layout.settle block.address).2 ∧ (layout.settle block.address).2.Settled ∧
      heap.Edits settled fun address =>
        layout.Bookkeeping address ∨ (layout.settle block.address).2.Bookkeeping address := by
  rw [hjoins.settle_eq h.tiles h.order_nodup h.order_free hblock]
  have hfree : merged.address ∈ freeAddresses (before ++ merged :: after) :=
    mem_freeAddresses.2 ⟨merged, by simp, hjoins.free, rfl⟩
  have hunlisted : merged.address ∉ layout.order.diff (run.map (·.address)) := fun hmem =>
    (h.order_nodup.mem_sdiff_iff.1 hmem).2 hjoins.address_mem
  obtain ⟨settled, hrun, hsound, hlinks⟩ := hmiddle.run_enlist hfree hunlisted
  refine ⟨settled, ?_, hsound, hjoins.settled h.tiles h.order_nodup, ?_⟩
  · rw [run_bind_of_ok hrun]
    rfl
  · refine (hedits.mono fun address hin => ?_).trans (hlinks.mono fun address hin => .inr hin)
    exact hin.imp_right fun htags => .inl ⟨merged, by simp, .inl htags⟩

/-- Once the free neighbours are delisted, writing the tags of the joined block and enlisting it end
the operation. -/
theorem run_settle_join (h : heap.Sound layout) (hjoins : layout.Joins before run merged after)
    (hmiddle : middle.Sound { layout with order := layout.order.diff (run.map (·.address)) })
    (hedits : heap.Edits middle layout.Bookkeeping) (hblock : block ∈ run)
    {size : Nat} (hsize : size = merged.size) :
    ∃ settled, (do
        setTags merged.address size false
        enlist merged.address
        return merged.address : HeapM σ Nat).run middle =
          .ok (layout.settle block.address).1 settled ∧
      settled.Sound (layout.settle block.address).2 ∧ (layout.settle block.address).2.Settled ∧
      heap.Edits settled fun address =>
        layout.Bookkeeping address ∨ (layout.settle block.address).2.Bookkeeping address := by
  have htiles := h.tiles.mergeFree
  have hmin := forall_size_mergeFree (heap.settings.minBlock ≤ ·)
    (fun _ _ hle _ => hle.trans (Nat.le_add_right _ _)) h.minBlock_le
  have haligned := forall_size_mergeFree (· % alignment = 0)
    (fun _ _ hfirst hsecond => by simp only [alignment] at *; omega) h.size_aligned
  rw [hjoins.merge_eq] at htiles hmin haligned
  obtain ⟨hbefore, -, hlater⟩ := tiles_append_cons.1 htiles
  have hunlisted : ∀ block ∈ run, block.address ∉ layout.order.diff (run.map (·.address)) :=
    fun block hblock hmem =>
      (h.order_nodup.mem_sdiff_iff.1 hmem).2 (List.mem_map_of_mem hblock)
  obtain ⟨tagged, hrun, hsound, htags⟩ :=
    hmiddle.run_setTags merged before run after hjoins.blocks_eq (hedits.start_eq ▸ hbefore) hlater
      (hedits.settings_eq ▸ hmin merged (by simp)) (haligned merged (by simp)) hunlisted
  rw [hsize, ← hjoins.free, run_bind_of_ok hrun]
  exact h.run_settle_enlist hjoins hsound
    ((hedits.mono fun _ => .inl).trans (htags.mono fun _ => .inr)) hblock

/-- Settling a pending block leads to a heap that spells the settled layout. -/
theorem run_settle (h : heap.Sound layout) (hpending : layout.Pending before block after) :
    ∃ settled, (settle block.address).run heap = .ok (layout.settle block.address).1 settled ∧
      settled.Sound (layout.settle block.address).2 ∧ (layout.settle block.address).2.Settled ∧
      heap.Edits settled fun address =>
        layout.Bookkeeping address ∨ (layout.settle block.address).2.Bookkeeping address := by
  have hblock : block ∈ layout.blocks := by simp [hpending.blocks_eq]
  have hbounds := h.bounds hblock
  have hsize := h.blockSize_eq hblock
  obtain ⟨previous, hprevious, hbefore⟩ := h.block_before hpending.blocks_eq
  obtain ⟨hnext, hafter⟩ := h.block_after hpending.blocks_eq
  rw [settle, run_bind_of_ok (run_observe_of_ok hprevious),
    run_bind_of_ok (run_observe_of_ok hnext)]
  rcases hbefore with
      ⟨hallocated, hbefore⟩ | ⟨front, previous, rfl, hfree, hstop, rfl, hallocated⟩ <;>
    rcases hafter with
      ⟨hnextAllocated, hafter⟩ | ⟨next, rest, rfl, hnextFree, haddress, hnextAllocated⟩ <;>
    rw [run_bind_of_ok (run_observe_of_ok hallocated),
      run_bind_of_ok (run_observe_of_ok hnextAllocated), run_bind_of_ok (run_observe_of_ok hsize)]
  -- both neighbours are allocated: no tag has to be written
  · refine h.run_settle_enlist (hpending.joins_alone hbefore hafter) ?_ (Edits.refl heap _)
      (by simp)
    show heap.Sound ⟨before ++ block :: after, layout.order.diff ([] ++ [block.address]), _⟩
    rw [hpending.diff_eq [] [], ← hpending.blocks_eq]
    exact h
  -- only the next one is free
  · rw [← haddress]
    obtain ⟨delisted, hdelist, hsound, hlinks⟩ :=
      h.run_delist (hpending.listed next (by simp) hnextFree)
    have hnextMem : next ∈ layout.blocks := by simp [hpending.blocks_eq]
    have hnextSize := hsound.blockSize_eq hnextMem
    dsimp only
    rw [run_bind_of_ok hdelist, run_bind_of_ok (run_observe_of_ok hnextSize)]
    refine h.run_settle_join (hpending.joins_next hbefore hnextFree) ?_ hlinks (by simp) rfl
    show delisted.Sound { layout with order := layout.order.diff ([] ++ [block.address, _]) }
    rw [hpending.diff_eq [] [next.address]]
    simpa [List.diff_cons] using hsound
  -- only the previous one is free
  · obtain ⟨delisted, hdelist, hsound, hlinks⟩ :=
      h.run_delist (hpending.listed previous (by simp) hfree)
    have hpreviousMem : previous ∈ layout.blocks := by simp [hpending.blocks_eq]
    have hpreviousSize := hsound.blockSize_eq hpreviousMem
    dsimp only
    rw [run_bind_of_ok hdelist, run_bind_of_ok (run_observe_of_ok hpreviousSize)]
    refine h.run_settle_join (hpending.joins_previous hfree hafter) ?_ hlinks (by simp)
      (Nat.add_comm ..)
    show delisted.Sound { layout with order := layout.order.diff ([_] ++ [block.address]) }
    rw [hpending.diff_eq [previous.address] []]
    simpa [List.diff_cons] using hsound
  -- both are free: the second one is taken out of a list that has lost the first one
  · rw [← haddress]
    obtain ⟨first, hfirst, hsound, hlinks⟩ :=
      h.run_delist (hpending.listed previous (by simp) hfree)
    have hnextListed : next.address ∈ layout.order.erase previous.address := by
      refine (List.mem_erase_of_ne ?_).2 (hpending.listed next (by simp) hnextFree)
      simp only [Block.stop] at hstop haddress
      omega
    obtain ⟨delisted, hdelist, hsound, hlinks'⟩ := hsound.run_delist hnextListed
    have hpreviousMem : previous ∈ layout.blocks := by simp [hpending.blocks_eq]
    have hpreviousSize := hsound.blockSize_eq hpreviousMem
    have hnextMem : next ∈ layout.blocks := by simp [hpending.blocks_eq]
    have hnextSize := hsound.blockSize_eq hnextMem
    dsimp only
    rw [run_bind_of_ok hfirst, run_bind_of_ok hdelist,
      run_bind_of_ok (run_observe_of_ok hpreviousSize),
      run_bind_of_ok (run_observe_of_ok hnextSize)]
    refine h.run_settle_join (hpending.joins_both hfree hnextFree) ?_ (hlinks.trans hlinks')
      (by simp) ?_
    · show delisted.Sound { layout with order := layout.order.diff ([_] ++ [block.address, _]) }
      rw [hpending.diff_eq [previous.address] [next.address]]
      simpa [List.diff_cons] using hsound
    · simp only [Block.join]
      omega

end Heap.Sound

end BoundaryTag
