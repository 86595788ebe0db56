import BoundaryTag.Proofs.Layout.Chain

/-!
# Merging free blocks

`mergeFree` joins all runs of free blocks in a chain at once, whereas an operation joins one block
with its two neighbours. `mergeFree_append` brings the two together: blocks among which no two free
ones stand side by side are left alone. `Layout.Joins.settle_eq` says what settling does to a layout
in which only one run of free blocks is to be joined, and `Layout.occupy_of_split` what taking a
block does.
-/

namespace BoundaryTag

variable {first stop : Nat} {blocks before after : List Block} {block next : Block}

/-! ## Joining runs -/

theorem mergeFree_cons_of_apart (h : (block :: mergeFree blocks).IsChain Block.Apart) :
    mergeFree (block :: blocks) = block :: mergeFree blocks := by
  rw [mergeFree]
  split
  next hnil => rw [hnil]
  next next rest hcons =>
    rw [hcons, List.isChain_cons_cons] at h
    have hapart : (block.allocated || next.allocated) = true := by simpa [Block.Apart] using h.1
    rw [if_pos hapart, hcons]

/-- A free block is joined with the free block that follows it. -/
theorem mergeFree_cons_of_free (hmerge : mergeFree blocks = next :: after)
    (hblock : block.allocated = false) (hnext : next.allocated = false) :
    mergeFree (block :: blocks) = block.join next :: after := by
  rw [mergeFree, hmerge]
  simp [hblock, hnext]

/-- Blocks of which no two neighbours are free stay as they are. -/
theorem mergeFree_append (h : (before ++ mergeFree blocks).IsChain Block.Apart) :
    mergeFree (before ++ blocks) = before ++ mergeFree blocks := by
  induction before with
  | nil => rfl
  | cons block before ih =>
      rw [List.cons_append] at h ⊢
      have hmerge := ih h.tail
      rw [← hmerge] at h
      rw [mergeFree_cons_of_apart h, hmerge]
      rfl

theorem mergeFree_of_isChain (h : blocks.IsChain Block.Apart) : mergeFree blocks = blocks := by
  have hmerge : mergeFree (blocks ++ []) = blocks ++ mergeFree [] :=
    mergeFree_append (by simpa [mergeFree] using h)
  simpa [mergeFree] using hmerge

/-- Of two neighbours, the second one may be replaced by a block with its flag. -/
theorem isChain_cons_congr (hflag : next.allocated = block.allocated)
    (h : (block :: after).IsChain Block.Apart) : (next :: after).IsChain Block.Apart := by
  refine h.imp_head fun {other} hapart => ?_
  rwa [Block.Apart, hflag]

/-- After merging, no two free blocks stand side by side. -/
theorem isChain_mergeFree (blocks : List Block) : (mergeFree blocks).IsChain Block.Apart := by
  induction blocks with
  | nil => exact List.isChain_nil
  | cons block blocks ih =>
      rw [mergeFree]
      split
      next => exact List.isChain_singleton _
      next next rest hcons =>
        rw [hcons] at ih
        split
        next hapart =>
          exact List.isChain_cons_cons.2 ⟨by simpa [Block.Apart] using hapart, ih⟩
        next hfree =>
          simp only [Bool.or_eq_true, not_or, Bool.not_eq_true] at hfree
          exact isChain_cons_congr (by rw [hfree.2]; rfl) ih

/-- Merged blocks fill the same addresses. -/
theorem Tiles.mergeFree (h : Tiles first blocks stop) : Tiles first (mergeFree blocks) stop := by
  induction blocks generalizing first with
  | nil => exact h
  | cons block blocks ih =>
      obtain ⟨haddress, hpos, hblocks⟩ := tiles_cons.1 h
      have hmerged := ih hblocks
      rw [BoundaryTag.mergeFree]
      split
      next hnil =>
        rw [hnil] at hmerged
        exact tiles_cons.2 ⟨haddress, hpos, hmerged⟩
      next next rest hcons =>
        rw [hcons] at hmerged
        split
        next => exact tiles_cons.2 ⟨haddress, hpos, hmerged⟩
        next =>
          obtain ⟨hnext, _, hrest⟩ := tiles_cons.1 hmerged
          have hstop : (block.join next).stop = next.stop := by
            simp only [Block.stop, Block.join] at hnext ⊢
            omega
          exact tiles_cons.2 ⟨haddress, Nat.add_pos_left hpos _, by rwa [hstop]⟩

/-- What holds of all sizes, and of the sum of two sizes of which it holds, holds after merging. -/
theorem forall_size_mergeFree (P : Nat → Prop) (hadd : ∀ first second, P first → P second →
    P (first + second)) (h : ∀ block ∈ blocks, P block.size) :
    ∀ block ∈ mergeFree blocks, P block.size := by
  induction blocks with
  | nil => exact h
  | cons block blocks ih =>
      rw [List.forall_mem_cons] at h
      have hmerged := ih h.2
      rw [mergeFree]
      split
      next => simpa using h.1
      next next rest hcons =>
        rw [hcons, List.forall_mem_cons] at hmerged
        split
        next => exact List.forall_mem_cons.2 ⟨h.1, List.forall_mem_cons.2 hmerged⟩
        next => exact List.forall_mem_cons.2 ⟨hadd _ _ h.1 hmerged.1, hmerged.2⟩

/-- Every free block is part of a free block after merging. -/
theorem Tiles.exists_mergeFree (h : Tiles first blocks stop) (hblock : block ∈ blocks)
    (hfree : block.allocated = false) :
    ∃ merged ∈ BoundaryTag.mergeFree blocks, merged.allocated = false ∧
      merged.address ≤ block.address ∧ block.stop ≤ merged.stop := by
  induction blocks generalizing first with
  | nil => exact absurd hblock List.not_mem_nil
  | cons head blocks ih =>
      obtain ⟨-, -, hblocks⟩ := tiles_cons.1 h
      have hmerged := hblocks.mergeFree
      have hrest := ih hblocks
      rw [BoundaryTag.mergeFree]
      split
      next hnil =>
        rw [hnil] at hrest
        rcases List.mem_cons.1 hblock with rfl | hmem
        · exact ⟨block, by simp, hfree, le_refl _, le_refl _⟩
        · obtain ⟨merged, hmem, -⟩ := hrest hmem
          exact absurd hmem List.not_mem_nil
      next next rest hcons =>
        rw [hcons] at hrest hmerged
        obtain ⟨hnext, -, -⟩ := tiles_cons.1 hmerged
        split
        next =>
          rcases List.mem_cons.1 hblock with rfl | hmem
          · exact ⟨block, by simp, hfree, le_refl _, le_refl _⟩
          · obtain ⟨merged, hmem, hcovers⟩ := hrest hmem
            exact ⟨merged, List.mem_cons_of_mem _ hmem, hcovers⟩
        next =>
          have hstop : (head.join next).stop = next.stop := by
            simp only [Block.stop, Block.join] at hnext ⊢
            omega
          rcases List.mem_cons.1 hblock with rfl | hmem
          · refine ⟨block.join next, by simp, rfl, le_refl _, ?_⟩
            rw [hstop, ← hnext]
            exact Nat.le_add_right _ _
          · obtain ⟨merged, hmem, hmergedFree, hlow, hhigh⟩ := hrest hmem
            rcases List.mem_cons.1 hmem with rfl | hmem
            · refine ⟨head.join merged, by simp, rfl, ?_, hstop ▸ hhigh⟩
              simp only [Block.join, Block.stop] at hnext ⊢
              omega
            · exact ⟨merged, List.mem_cons_of_mem _ hmem, hmergedFree, hlow, hhigh⟩

/-! ## Settling and occupying -/

namespace Layout

/-- No two free blocks stand side by side, and all of them are listed. -/
structure Settled (layout : Layout) : Prop where
  apart : layout.blocks.IsChain Block.Apart
  listed : ∀ bp ∈ freeAddresses layout.blocks, bp ∈ layout.order

/-- The blocks fill the addresses from `first` on, and the list has exactly the free ones, no two of
which stand side by side. -/
structure Orderly (layout : Layout) (first : Nat) : Prop where
  settled : layout.Settled
  tiles : Tiles first layout.blocks layout.stop
  order_nodup : layout.order.Nodup
  order_free : ∀ listed ∈ layout.order, listed ∈ freeAddresses layout.blocks

/-- Of the free blocks, only this one may stand beside others, and it is not listed yet. -/
structure Pending (layout : Layout) (before : List Block) (block : Block) (after : List Block) :
    Prop where
  blocks_eq : layout.blocks = before ++ block :: after
  free : block.allocated = false
  unlisted : block.address ∉ layout.order
  apart_before : before.IsChain Block.Apart
  apart_after : after.IsChain Block.Apart
  listed : ∀ other ∈ before ++ after, other.allocated = false → other.address ∈ layout.order

/-- Merging joins one run of free blocks, and the other free blocks are listed. -/
structure Joins (layout : Layout) (before run : List Block) (merged : Block) (after : List Block) :
    Prop where
  blocks_eq : layout.blocks = before ++ run ++ after
  merge_eq : mergeFree layout.blocks = before ++ merged :: after
  run_free : ∀ block ∈ run, block.allocated = false
  free : merged.allocated = false
  address_mem : merged.address ∈ run.map (·.address)
  listed : ∀ other ∈ before ++ after, other.allocated = false → other.address ∈ layout.order

variable {layout : Layout} {run rest : List Block} {merged previous next : Block}

namespace Pending

/-- A block whose successor is allocated starts the rest of the merged blocks. -/
theorem merge_after (h : layout.Pending before block after)
    (hnext : ∀ next ∈ after.head?, next.allocated = true) :
    mergeFree (block :: after) = block :: after :=
  mergeFree_of_isChain
    (List.isChain_cons.2 ⟨fun next hmem => .inr (hnext next hmem), h.apart_after⟩)

/-- A block whose successor is free is joined with it. -/
theorem merge_next (h : layout.Pending before block (next :: rest))
    (hnext : next.allocated = false) :
    mergeFree (block :: next :: rest) = block.join next :: rest :=
  mergeFree_cons_of_free (mergeFree_of_isChain h.apart_after) h.free hnext

/-- What comes before a block whose predecessor is allocated stays. -/
theorem merge_before (h : layout.Pending before block after)
    (hmerge : mergeFree (block :: after) = merged :: rest)
    (hprevious : ∀ previous ∈ before.getLast?, previous.allocated = true) :
    mergeFree layout.blocks = before ++ merged :: rest := by
  rw [h.blocks_eq, mergeFree_append, hmerge]
  refine List.isChain_append.2 ⟨h.apart_before, isChain_mergeFree _, fun previous hmem _ _ => ?_⟩
  exact .inl (hprevious previous hmem)

/-- A predecessor that is free is joined with what its successor became. -/
theorem merge_previous (h : layout.Pending (before ++ [previous]) block after)
    (hmerge : mergeFree (block :: after) = merged :: rest) (hfree : merged.allocated = false)
    (hprevious : previous.allocated = false) :
    mergeFree layout.blocks = before ++ previous.join merged :: rest := by
  have hjoin := mergeFree_cons_of_free hmerge hprevious hfree
  obtain ⟨hbefore, -, hapart⟩ := List.isChain_append.1 h.apart_before
  rw [h.blocks_eq, List.append_assoc, List.singleton_append, mergeFree_append, hjoin]
  refine List.isChain_append.2 ⟨hbefore, isChain_mergeFree _, fun other hmem _ _ => .inl ?_⟩
  have hother := hapart other hmem previous rfl
  simpa [Block.Apart, hprevious] using hother

/-- Between allocated blocks, the pending block is a run of its own. -/
theorem joins_alone (h : layout.Pending before block after)
    (hprevious : ∀ previous ∈ before.getLast?, previous.allocated = true)
    (hnext : ∀ next ∈ after.head?, next.allocated = true) :
    layout.Joins before [block] block after where
  blocks_eq := by simp [h.blocks_eq]
  merge_eq := h.merge_before (h.merge_after hnext) hprevious
  run_free := by simpa using h.free
  free := h.free
  address_mem := by simp
  listed := h.listed

/-- The pending block is joined with a free successor. -/
theorem joins_next (h : layout.Pending before block (next :: rest))
    (hprevious : ∀ previous ∈ before.getLast?, previous.allocated = true)
    (hnext : next.allocated = false) :
    layout.Joins before [block, next] (block.join next) rest where
  blocks_eq := by simp [h.blocks_eq]
  merge_eq := h.merge_before (h.merge_next hnext) hprevious
  run_free := by simp [h.free, hnext]
  free := rfl
  address_mem := by simp [Block.join]
  listed other hother := h.listed other (by simp at hother ⊢; tauto)

/-- The pending block is joined with a free predecessor. -/
theorem joins_previous (h : layout.Pending (before ++ [previous]) block after)
    (hprevious : previous.allocated = false)
    (hnext : ∀ next ∈ after.head?, next.allocated = true) :
    layout.Joins before [previous, block] (previous.join block) after where
  blocks_eq := by simp [h.blocks_eq]
  merge_eq := h.merge_previous (h.merge_after hnext) h.free hprevious
  run_free := by simp [h.free, hprevious]
  free := rfl
  address_mem := by simp [Block.join]
  listed other hother := h.listed other (by simp at hother ⊢; tauto)

/-- The pending block is joined with both of its neighbours when they are free. -/
theorem joins_both (h : layout.Pending (before ++ [previous]) block (next :: rest))
    (hprevious : previous.allocated = false) (hnext : next.allocated = false) :
    layout.Joins before [previous, block, next] (previous.join (block.join next)) rest where
  blocks_eq := by simp [h.blocks_eq]
  merge_eq := h.merge_previous (h.merge_next hnext) rfl hprevious
  run_free := by simp [h.free, hprevious, hnext]
  free := rfl
  address_mem := by simp [Block.join]
  listed other hother := h.listed other (by simp at hother ⊢; tauto)

end Pending

namespace Joins

theorem run_addresses (h : layout.Joins before run merged after) :
    freeAddresses run = run.map (·.address) := by
  rw [freeAddresses, List.filter_eq_self.2 (by simpa using h.run_free)]

/-- The joined block fills the addresses of the run. -/
theorem covers (h : layout.Joins before run merged after) (htiles : Tiles first layout.blocks stop)
    (hblock : block ∈ run) : merged.Covers block.address := by
  have hmerged := htiles.mergeFree
  rw [h.merge_eq] at hmerged
  rw [h.blocks_eq, List.append_assoc] at htiles
  obtain ⟨low, hbefore, htiles⟩ := tiles_append.1 htiles
  obtain ⟨high, hrun, hafter⟩ := tiles_append.1 htiles
  obtain ⟨hmergedBefore, -, hmergedAfter⟩ := tiles_append_cons.1 hmerged
  have hbounds := hrun.bounds hblock
  -- what comes before and behind is as long as it was
  have hlow := hbefore.totalSize_eq
  have hmergedLow := hmergedBefore.totalSize_eq
  have hhigh := hafter.totalSize_eq
  have hmergedHigh := hmergedAfter.totalSize_eq
  simp only [Block.Covers, Block.stop] at hbounds hmergedHigh ⊢
  omega

/-- Of the listed blocks, those of the run leave the list; all others are still free. -/
theorem filter_listed (h : layout.Joins before run merged after)
    (htiles : Tiles first layout.blocks stop) (hnodup : layout.order.Nodup)
    (horder : ∀ listed ∈ layout.order, listed ∈ freeAddresses layout.blocks) :
    (layout.order.filter fun listed =>
      listed ≠ merged.address ∧ listed ∈ freeAddresses (before ++ merged :: after)) =
      layout.order.diff (run.map (·.address)) := by
  have hnodupFree := htiles.nodup_freeAddresses
  rw [hnodup.sdiff_eq_filter]
  refine List.filter_congr fun listed hmem => ?_
  have hfreed := horder listed hmem
  simp only [h.blocks_eq, freeAddresses_append, h.run_addresses, List.append_assoc,
    List.nodup_append, List.mem_append] at hnodupFree hfreed
  obtain ⟨_, ⟨_, _, hafter⟩, hbefore⟩ := hnodupFree
  rw [decide_eq_decide]
  simp only [freeAddresses_append, freeAddresses_cons, h.free, Bool.false_eq_true, if_false,
    List.mem_append, List.mem_cons]
  constructor
  · rintro ⟨hne, hin | heq | hin⟩ hgone
    · exact hbefore listed hin listed (.inl hgone) rfl
    · exact hne heq
    · exact hafter listed hgone listed hin rfl
  · intro hkept
    refine ⟨fun heq => hkept (heq ▸ h.address_mem), ?_⟩
    rcases hfreed with hin | hgone | hin
    · exact .inl hin
    · exact absurd hgone hkept
    · exact .inr (.inr hin)

/-- Settling puts the joined block in front of the list, from which the run has been taken. -/
theorem settle_eq (h : layout.Joins before run merged after)
    (htiles : Tiles first layout.blocks stop) (hnodup : layout.order.Nodup)
    (horder : ∀ listed ∈ layout.order, listed ∈ freeAddresses layout.blocks)
    (hblock : block ∈ run) :
    layout.settle block.address = (merged.address,
      { layout with
        blocks := before ++ merged :: after
        order := merged.address :: layout.order.diff (run.map (·.address)) }) := by
  have hmerged : Tiles first (before ++ merged :: after) stop := h.merge_eq ▸ htiles.mergeFree
  rw [settle, h.merge_eq, hmerged.find?_covers (h.covers htiles hblock), Option.map_some,
    Option.getD_some, h.filter_listed htiles hnodup horder]

/-- Afterwards the layout is settled. -/
theorem settled (h : layout.Joins before run merged after)
    (htiles : Tiles first layout.blocks stop) (hnodup : layout.order.Nodup) :
    Settled { layout with
      blocks := before ++ merged :: after
      order := merged.address :: layout.order.diff (run.map (·.address)) } := by
  refine ⟨h.merge_eq ▸ isChain_mergeFree _, fun bp hbp => ?_⟩
  have hnodupFree := htiles.nodup_freeAddresses
  simp only [h.blocks_eq, freeAddresses_append, h.run_addresses, List.append_assoc,
    List.nodup_append, List.mem_append] at hnodupFree
  obtain ⟨_, ⟨_, _, hafter⟩, hbefore⟩ := hnodupFree
  have hlisted : ∀ bp, bp ∈ freeAddresses (before ++ after) → bp ∈ layout.order := by
    intro bp hbp
    obtain ⟨other, hother, hfree, rfl⟩ := mem_freeAddresses.1 hbp
    exact h.listed other hother hfree
  simp only [freeAddresses_append, List.mem_append] at hlisted
  simp only [freeAddresses_append, freeAddresses_cons, h.free, Bool.false_eq_true, if_false,
    List.mem_append, List.mem_cons] at hbp
  rw [List.mem_cons, hnodup.mem_sdiff_iff]
  rcases hbp with hin | rfl | hin
  · exact .inr ⟨hlisted bp (.inl hin), fun hgone => hbefore bp hin bp (.inl hgone) rfl⟩
  · exact .inl rfl
  · exact .inr ⟨hlisted bp (.inr hin), fun hgone => hafter bp hgone bp hin rfl⟩

end Joins

/-- The answer of settling is a free block with at least the bytes of the one that was settled. -/
theorem exists_settle (block : Block) (htiles : Tiles first layout.blocks stop)
    (hblock : block ∈ layout.blocks) (hfree : block.allocated = false) :
    ∃ merged ∈ (layout.settle block.address).2.blocks,
      merged.address = (layout.settle block.address).1 ∧ merged.allocated = false ∧
        block.size ≤ merged.size := by
  obtain ⟨merged, hmem, hmergedFree, hlow, hhigh⟩ := htiles.exists_mergeFree hblock hfree
  have hpos := htiles.size_pos block hblock
  have hmerged := htiles.mergeFree
  obtain ⟨front, rest, hsplit⟩ := List.append_of_mem hmem
  rw [hsplit] at hmerged
  have hcovers : merged.Covers block.address := by
    simp only [Block.Covers, Block.stop] at hhigh ⊢
    omega
  refine ⟨merged, hmem, ?_, hmergedFree, ?_⟩
  · rw [settle, hsplit, hmerged.find?_covers hcovers]
    rfl
  · simp only [Block.stop] at hhigh
    omega

/-- The answer of growing is a free block with at least the new bytes. -/
theorem exists_expand (htiles : Tiles first layout.blocks layout.stop) {count : Nat}
    (hcount : 0 < count) :
    ∃ merged ∈ (layout.expand count).2.blocks, merged.address = (layout.expand count).1 ∧
      merged.allocated = false ∧ count ≤ merged.size :=
  exists_settle ⟨layout.stop, count, false⟩
    (tiles_append_cons.2 ⟨htiles, hcount, tiles_nil.2 rfl⟩) (by simp) rfl

/-- Taking a block for some bytes splits it, and lists the rest. -/
theorem occupy_of_split {size minBlock : Nat} (hblocks : layout.blocks = before ++ block :: after)
    (htiles : Tiles first layout.blocks stop) :
    layout.occupy block.address size minBlock =
      { layout with
        blocks := before ++ (block.carve size minBlock ++ after)
        order :=
          if block.size - size ≥ minBlock then
            (block.address + size) :: layout.order.erase block.address
          else layout.order.erase block.address } := by
  have hblock : block ∈ layout.blocks := by simp [hblocks]
  have hsize := sizeAt_address htiles hblock
  rw [hblocks] at htiles
  rw [occupy, hsize, hblocks, htiles.flatMap_address]

/-- A request that is met takes a block of the layout as it is, or of the layout as it is after
growing. -/
theorem exists_of_allocate {settings : Settings} {granted : Nat → Bool} {request address : Nat}
    {next : Layout} (h : layout.allocate settings granted request = .ok (address, next)) :
    ∃ size source, request ≠ 0 ∧ blockSizeFor? request settings.minBlock = some size ∧
      next = source.occupy address size settings.minBlock ∧
      (layout.firstFit size = some address ∧ source = layout ∨
        layout.firstFit size = none ∧ layout.stop + max size settings.chunkSize ≤ heapLimit ∧
          granted (max size settings.chunkSize) = true ∧
            layout.expand (max size settings.chunkSize) = (address, source)) := by
  unfold allocate at h
  split at h
  next => exact nomatch h
  next hrequest =>
    split at h
    next => exact nomatch h
    next size hsize =>
      split at h
      next found hfound =>
        obtain ⟨rfl, rfl⟩ := Prod.mk.inj (Except.ok.inj h)
        exact ⟨size, layout, hrequest, hsize, rfl, .inl ⟨hfound, rfl⟩⟩
      next hnone =>
        dsimp only at h
        split at h
        next hgrows =>
          obtain ⟨rfl, rfl⟩ := Prod.mk.inj (Except.ok.inj h)
          exact ⟨size, _, hrequest, hsize, rfl, .inr ⟨hnone, hgrows.1, hgrows.2, rfl⟩⟩
        next => exact nomatch h

/-- Taking a free block of a settled layout leaves it settled: the rest of the block is listed, and
stands between the part that is taken and a block that is not free. -/
theorem Settled.occupy (h : layout.Settled) {size minBlock : Nat}
    (hblocks : layout.blocks = before ++ block :: after) (htiles : Tiles first layout.blocks stop)
    (hfree : block.allocated = false) :
    (layout.occupy block.address size minBlock).Settled := by
  rw [occupy_of_split hblocks htiles]
  have hapart := h.apart
  rw [hblocks] at htiles hapart
  obtain ⟨hbefore, hblock, -⟩ := List.isChain_append.1 hapart
  have hothers : ∀ bp ∈ freeAddresses (before ++ after), bp ∈ layout.order.erase block.address := by
    intro bp hbp
    obtain ⟨other, hother, hotherFree, rfl⟩ := mem_freeAddresses.1 hbp
    refine (List.mem_erase_of_ne (htiles.address_ne hother)).2
      (h.listed _ (mem_freeAddresses.2 ⟨other, ?_, hotherFree, rfl⟩))
    rw [hblocks]
    simp only [List.mem_append, List.mem_cons] at hother ⊢
    tauto
  have htaken : ∀ {taken : Block} {rest : List Block}, taken.allocated = true →
      rest.IsChain Block.Apart → (before ++ taken :: rest).IsChain Block.Apart :=
    fun htaken hrest => List.isChain_append.2 ⟨hbefore,
      List.isChain_cons.2 ⟨fun _ _ => .inl htaken, hrest⟩,
      fun _ _ next hnext => by obtain rfl := Option.some.inj hnext; exact .inr htaken⟩
  rw [Block.carve]
  by_cases hrest : block.size - size ≥ minBlock
  · rw [if_pos hrest, if_pos hrest]
    refine ⟨htaken rfl (isChain_cons_congr hfree.symm hblock), fun bp hbp => ?_⟩
    simp only [freeAddresses_append, freeAddresses_cons, List.cons_append, List.nil_append, if_true,
      Bool.false_eq_true, if_false, List.mem_append, List.mem_cons] at hbp hothers ⊢
    have hlisted := hothers bp
    tauto
  · rw [if_neg hrest, if_neg hrest]
    refine ⟨htaken rfl hblock.tail, fun bp hbp => ?_⟩
    simp only [freeAddresses_append, freeAddresses_cons, List.cons_append, List.nil_append, if_true,
      List.mem_append] at hbp hothers ⊢
    exact hothers bp hbp

end Layout

end BoundaryTag
