import BoundaryTag.Layout.FirstFit
import Mathlib.Data.List.Nodup

/-!
# Blocks that follow each other

`Tiles first blocks stop` says that blocks with at least one byte each fill the addresses from
`first` up to `stop`. Read `tiles_append_cons` first: a chain of blocks falls apart at each of its
blocks into two shorter chains. Different blocks of a chain have no byte in common
(`Tiles.disjoint`), so an address names at most one of them; the rest of the module says what the
functions on layouts, which look blocks up by their addresses, do at a block in the middle of a
chain.
-/

namespace BoundaryTag

/-- Blocks that are not empty fill the addresses from `first` up to `stop`. -/
structure Tiles (first : Nat) (blocks : List Block) (stop : Nat) : Prop where
  consecutive : Consecutive first blocks stop
  size_pos : ∀ block ∈ blocks, 0 < block.size

/-- The sizes of blocks, added up. -/
def Block.totalSize : List Block → Nat
  | [] => 0
  | block :: blocks => block.size + totalSize blocks

variable {first stop : Nat} {blocks before after : List Block} {block other : Block}

/-- Consecutive blocks can be cut in two at any place. -/
theorem consecutive_append : Consecutive first (before ++ after) stop ↔
    ∃ middle, Consecutive first before middle ∧ Consecutive middle after stop := by
  induction before generalizing first with
  | nil => exact ⟨fun h => ⟨first, rfl, h⟩, by rintro ⟨_, rfl, h⟩; exact h⟩
  | cons block before ih =>
      simp only [List.cons_append, Consecutive, ih]
      exact ⟨fun ⟨haddress, middle, h⟩ => ⟨middle, ⟨haddress, h.1⟩, h.2⟩,
        fun ⟨middle, ⟨haddress, hbefore⟩, hafter⟩ => ⟨haddress, middle, hbefore, hafter⟩⟩

/-- A chain can be cut in two at any place. -/
theorem tiles_append : Tiles first (before ++ after) stop ↔
    ∃ middle, Tiles first before middle ∧ Tiles middle after stop := by
  constructor
  · rintro ⟨hconsecutive, hpos⟩
    obtain ⟨middle, hbefore, hafter⟩ := consecutive_append.1 hconsecutive
    rw [List.forall_mem_append] at hpos
    exact ⟨middle, ⟨hbefore, hpos.1⟩, ⟨hafter, hpos.2⟩⟩
  · rintro ⟨middle, hbefore, hafter⟩
    exact ⟨consecutive_append.2 ⟨middle, hbefore.1, hafter.1⟩,
      List.forall_mem_append.2 ⟨hbefore.2, hafter.2⟩⟩

theorem tiles_nil : Tiles first [] stop ↔ first = stop :=
  ⟨fun h => h.consecutive, fun h => ⟨h, by simp⟩⟩

theorem tiles_cons : Tiles first (block :: after) stop ↔
    block.address = first ∧ 0 < block.size ∧ Tiles block.stop after stop := by
  constructor
  · rintro ⟨⟨haddress, hafter⟩, hpos⟩
    rw [List.forall_mem_cons] at hpos
    exact ⟨haddress, hpos.1, hafter, hpos.2⟩
  · rintro ⟨haddress, hpos, hafter⟩
    exact ⟨⟨haddress, hafter.1⟩, List.forall_mem_cons.2 ⟨hpos, hafter.2⟩⟩

/-- A chain falls apart at each of its blocks. -/
theorem tiles_append_cons : Tiles first (before ++ block :: after) stop ↔
    Tiles first before block.address ∧ 0 < block.size ∧ Tiles block.stop after stop := by
  rw [tiles_append]
  constructor
  · rintro ⟨middle, hbefore, hrest⟩
    obtain ⟨rfl, hpos, hafter⟩ := tiles_cons.1 hrest
    exact ⟨hbefore, hpos, hafter⟩
  · rintro ⟨hbefore, hpos, hafter⟩
    exact ⟨block.address, hbefore, tiles_cons.2 ⟨rfl, hpos, hafter⟩⟩

namespace Tiles

/-- A chain is as long as its blocks are together. -/
theorem totalSize_eq (h : Tiles first blocks stop) : first + Block.totalSize blocks = stop := by
  induction blocks generalizing first with
  | nil => exact tiles_nil.1 h
  | cons block after ih =>
      obtain ⟨rfl, _, hafter⟩ := tiles_cons.1 h
      rw [Block.totalSize, ← Nat.add_assoc]
      exact ih hafter

theorem first_le_stop (h : Tiles first blocks stop) : first ≤ stop :=
  h.totalSize_eq ▸ Nat.le_add_right ..

/-- Every block of a chain lies inside of it. -/
theorem bounds (h : Tiles first blocks stop) (hblock : block ∈ blocks) :
    first ≤ block.address ∧ 0 < block.size ∧ block.stop ≤ stop := by
  obtain ⟨before, after, rfl⟩ := List.append_of_mem hblock
  obtain ⟨hbefore, hpos, hafter⟩ := tiles_append_cons.1 h
  exact ⟨hbefore.first_le_stop, hpos, hafter.first_le_stop⟩

/-- What comes before or after a part of a chain lies outside of it. -/
theorem outside {start finish : Nat} (hbefore : Tiles start before first)
    (hafter : Tiles stop after finish) (hblock : block ∈ before ++ after) :
    block.stop ≤ first ∨ stop ≤ block.address := by
  rcases List.mem_append.1 hblock with hmem | hmem
  · exact .inl (hbefore.bounds hmem).2.2
  · exact .inr (hafter.bounds hmem).1

/-- The blocks of a chain are sorted by their addresses. -/
theorem pairwise (h : Tiles first blocks stop) :
    blocks.Pairwise fun block other => block.stop ≤ other.address := by
  induction blocks generalizing first with
  | nil => exact List.Pairwise.nil
  | cons block after ih =>
      obtain ⟨_, _, hafter⟩ := tiles_cons.1 h
      exact List.pairwise_cons.2 ⟨fun other hother => (hafter.bounds hother).1, ih hafter⟩

/-- Different blocks of a chain have no byte in common. -/
theorem disjoint (h : Tiles first blocks stop) (hblock : block ∈ blocks) (hother : other ∈ blocks)
    (hne : block ≠ other) : block.stop ≤ other.address ∨ other.stop ≤ block.address := by
  let Disjoint (block other : Block) := block.stop ≤ other.address ∨ other.stop ≤ block.address
  have hsymm : Std.Symm Disjoint := ⟨fun _ _ => Or.symm⟩
  have hpairwise : blocks.Pairwise Disjoint := h.pairwise.imp Or.inl
  exact hpairwise.forall hblock hother hne

/-- Behind a block of a chain comes the end of the chain or another block. -/
theorem stop_eq_or_exists (h : Tiles first blocks stop) (hblock : block ∈ blocks) :
    block.stop = stop ∨ ∃ next ∈ blocks, next.address = block.stop := by
  obtain ⟨before, after, rfl⟩ := List.append_of_mem hblock
  obtain ⟨-, -, hafter⟩ := tiles_append_cons.1 h
  cases after with
  | nil => exact .inl (tiles_nil.1 hafter)
  | cons next after => exact .inr ⟨next, by simp, (tiles_cons.1 hafter).1⟩

/-- The last block of a chain ends where the chain ends. -/
theorem exists_last (h : Tiles first (block :: blocks) stop) :
    ∃ last ∈ block :: blocks, last.stop = stop := by
  obtain ⟨before, last, heq⟩ := (List.eq_nil_or_concat' (block :: blocks)).resolve_left (by simp)
  rw [heq] at h ⊢
  exact ⟨last, by simp, tiles_nil.1 (tiles_append_cons.1 h).2.2⟩

/-- No block of a chain starts in the middle of another one. -/
theorem address_ne_inside (h : Tiles first blocks stop) (hblock : block ∈ blocks)
    (hother : other ∈ blocks) {offset : Nat} (hpos : 0 < offset) (hlt : offset < block.size) :
    other.address ≠ block.address + offset := by
  intro haddress
  have hotherPos := h.size_pos other hother
  by_cases heq : block = other
  · subst heq
    omega
  · have hdisjoint := h.disjoint hblock hother heq
    simp only [Block.stop] at hdisjoint
    omega

/-- An address names at most one block of a chain. -/
theorem eq_of_address (h : Tiles first blocks stop) (hblock : block ∈ blocks)
    (hother : other ∈ blocks) (haddress : block.address = other.address) : block = other := by
  by_contra hne
  have hblockPos := h.size_pos block hblock
  have hotherPos := h.size_pos other hother
  have hdisjoint := h.disjoint hblock hother hne
  simp only [Block.stop] at hdisjoint
  omega

/-- The other blocks of a chain have other addresses. -/
theorem address_ne (h : Tiles first (before ++ block :: after) stop)
    (hother : other ∈ before ++ after) : other.address ≠ block.address := by
  obtain ⟨hbefore, hpos, hafter⟩ := tiles_append_cons.1 h
  rcases List.mem_append.1 hother with hmem | hmem
  · have hbounds := hbefore.bounds hmem
    simp only [Block.stop] at hbounds
    omega
  · have hbounds := hafter.bounds hmem
    simp only [Block.stop] at hbounds
    omega

/-- A chain has no more blocks than bytes. -/
theorem length_le (h : Tiles first blocks stop) : first + blocks.length ≤ stop := by
  induction blocks generalizing first with
  | nil => exact Nat.le_of_eq (tiles_nil.1 h)
  | cons block after ih =>
      obtain ⟨rfl, hpos, hafter⟩ := tiles_cons.1 h
      have hle := ih hafter
      simp only [Block.stop] at hle
      simp only [List.length_cons]
      omega

theorem nodup_addresses (h : Tiles first blocks stop) : (blocks.map (·.address)).Nodup := by
  refine (List.nodup_map_iff_inj_on ?_).2 fun block hblock other hother haddress =>
    h.eq_of_address hblock hother haddress
  refine h.pairwise.imp_of_mem fun {block other} hblock _ hle heq => ?_
  have hpos := h.size_pos block hblock
  simp only [← heq, Block.stop] at hle
  omega

/-- A chain of aligned sizes that starts at an aligned address has aligned blocks. -/
theorem address_aligned (h : Tiles first blocks stop) (hfirst : first % alignment = 0)
    (hsizes : ∀ block ∈ blocks, block.size % alignment = 0) (hblock : block ∈ blocks) :
    block.address % alignment = 0 := by
  induction blocks generalizing first with
  | nil => exact nomatch hblock
  | cons next blocks ih =>
      rw [List.forall_mem_cons] at hsizes
      obtain ⟨rfl, -, hrest⟩ := tiles_cons.1 h
      have hnext : next.stop % alignment = 0 := by
        simp only [Block.stop, alignment] at *
        omega
      rcases List.mem_cons.1 hblock with rfl | hmem
      · exact hfirst
      · exact ih hrest hnext hsizes.2 hmem

end Tiles

/-! ## Free addresses -/

theorem mem_freeAddresses {address : Nat} : address ∈ freeAddresses blocks ↔
    ∃ block ∈ blocks, block.allocated = false ∧ block.address = address := by
  simp [freeAddresses, and_assoc]

@[simp] theorem freeAddresses_nil : freeAddresses [] = [] := rfl

@[simp] theorem freeAddresses_append :
    freeAddresses (before ++ after) = freeAddresses before ++ freeAddresses after := by
  simp [freeAddresses]

@[simp] theorem freeAddresses_cons : freeAddresses (block :: after) =
    if block.allocated then freeAddresses after else block.address :: freeAddresses after := by
  cases hallocated : block.allocated <;> simp [freeAddresses, hallocated]

theorem Tiles.nodup_freeAddresses (h : Tiles first blocks stop) : (freeAddresses blocks).Nodup :=
  h.nodup_addresses.sublist (List.filter_sublist.map _)

/-! ## Looking a block up by its address -/

namespace Layout

variable {layout : Layout}

/-- The block that is found at a block's address is that block. -/
theorem block?_address (htiles : Tiles first layout.blocks stop) (hblock : block ∈ layout.blocks) :
    layout.block? block.address = some block := by
  obtain ⟨found, hfound⟩ : ∃ found, layout.block? block.address = some found :=
    Option.isSome_iff_exists.1 (List.find?_isSome.2 ⟨block, hblock, by simp⟩)
  have haddress : found.address = block.address := by simpa using List.find?_some hfound
  rw [hfound, htiles.eq_of_address (List.mem_of_find?_eq_some hfound) hblock haddress]

theorem sizeAt_address (htiles : Tiles first layout.blocks stop) (hblock : block ∈ layout.blocks) :
    layout.sizeAt block.address = block.size := by
  rw [sizeAt, block?_address htiles hblock]
  rfl

end Layout

/-- The block that covers an address is the only one in its chain that does. -/
theorem Tiles.find?_covers (h : Tiles first (before ++ block :: after) stop) {address : Nat}
    (hcovers : block.Covers address) :
    (before ++ block :: after).find? (·.Covers address) = some block := by
  obtain ⟨hbefore, _, _⟩ := tiles_append_cons.1 h
  rw [List.find?_append, List.find?_eq_none.2, Option.none_or, List.find?_cons_of_pos (by simpa)]
  intro other hother hcovered
  have hhigh : address < other.stop := (of_decide_eq_true hcovered).2
  have hlow : block.address ≤ address := hcovers.1
  have hle : other.stop ≤ block.address := (hbefore.bounds hother).2.2
  omega

/-- Marking the block with an address as free changes that block only. -/
theorem Tiles.map_markFree (h : Tiles first (before ++ block :: after) stop) :
    (before ++ block :: after).map (Block.markFree block.address) =
      before ++ { block with allocated := false } :: after := by
  have hsame : ∀ other ∈ before ++ after, Block.markFree block.address other = other :=
    fun other hother => if_neg (h.address_ne hother)
  rw [List.forall_mem_append] at hsame
  rw [List.map_append, List.map_cons, List.map_congr_left hsame.1, List.map_congr_left hsame.2,
    List.map_id', List.map_id', Block.markFree, if_pos rfl]

/-- Replacing the block with an address by some blocks keeps all others. -/
theorem Tiles.flatMap_address (h : Tiles first (before ++ block :: after) stop)
    (replace : Block → List Block) :
    ((before ++ block :: after).flatMap fun other =>
      if other.address = block.address then replace other else [other]) =
      before ++ (replace block ++ after) := by
  have hsame : ∀ other ∈ before ++ after,
      (if other.address = block.address then replace other else [other]) = [other] :=
    fun other hother => if_neg (h.address_ne hother)
  rw [List.forall_mem_append] at hsame
  have hid : ∀ blocks : List Block, (blocks.flatMap fun other => [other]) = blocks := by
    intro blocks
    simp
  rw [List.flatMap_append, List.flatMap_cons, List.flatMap_congr hsame.1,
    List.flatMap_congr hsame.2, hid, hid, if_pos rfl]

end BoundaryTag
