import BoundaryTag.Client.Session
import BoundaryTag.Proofs.Client.Steps
import BoundaryTag.Provider.Bounded

/-!
# Heaps and layouts in lockstep

The bytes of a heap represent one layout only (`Heap.Represents.unique`), so a layout is what a heap
decodes to. `Client.replay_of_run` says that a run on the heap and its replay on that layout give
the same answers and stay together. A layout merges all runs of free blocks at once, where the heap
looks at the two neighbours of one block. On every layout that a run comes to this is the same:
`Client.joinsNeighbours_of_run`.
-/

namespace BoundaryTag

variable {σ ε : Type}

/-! ## Decoding -/

/-- The tags of consecutive blocks tell where they end and whether they are allocated. -/
theorem Memory.blocks_unique {memory : Memory} {first stop : Nat} {blocks others : List Block}
    (hblocks : Tiles first blocks stop) (hothers : Tiles first others stop)
    (htagged : ∀ block ∈ blocks, memory.Tagged block)
    (htaggedOthers : ∀ block ∈ others, memory.Tagged block) : blocks = others := by
  induction blocks generalizing first others with
  | nil =>
      obtain rfl := tiles_nil.1 hblocks
      cases others with
      | nil => rfl
      | cons other others =>
          have hbounds := hothers.bounds List.mem_cons_self
          simp only [Block.stop] at hbounds
          omega
  | cons block blocks ih =>
      cases others with
      | nil =>
          obtain rfl := tiles_nil.1 hothers
          have hbounds := hblocks.bounds List.mem_cons_self
          simp only [Block.stop] at hbounds
          omega
      | cons other others =>
          rw [List.forall_mem_cons] at htagged htaggedOthers
          obtain ⟨haddress, -, hrest⟩ := tiles_cons.1 hblocks
          obtain ⟨hotherAddress, -, hotherRest⟩ := tiles_cons.1 hothers
          have hheader := htagged.1.header
          have hotherHeader := htaggedOthers.1.header
          rw [haddress] at hheader
          rw [hotherAddress, hheader] at hotherHeader
          obtain ⟨hsize, hallocated⟩ := Prod.mk.inj hotherHeader
          -- both start at `first`, and the memory has only one header there
          obtain rfl : block = other := by
            cases block
            cases other
            simp_all
          rw [ih hrest hotherRest htagged.2 htaggedOthers.2]

/-- The links of a list tell how it goes on from its first block. -/
theorem Memory.linked_unique {memory : Memory} {before : Option Nat} {listed others : List Nat}
    (hlisted : memory.Linked before listed) (hothers : memory.Linked before others)
    (hhead : listed.head? = others.head?) : listed = others := by
  induction listed generalizing before others with
  | nil => exact (List.head?_eq_none_iff.1 hhead.symm).symm
  | cons bp listed ih =>
      cases others with
      | nil => exact absurd hhead (by simp)
      | cons other others =>
          obtain rfl : bp = other := Option.some.inj hhead
          obtain ⟨-, hnext, hrest⟩ := hlisted
          obtain ⟨-, hotherNext, hotherRest⟩ := hothers
          rw [ih hrest hotherRest (hnext.symm.trans hotherNext)]

namespace Heap

variable {heap : Heap σ} {layout other : Layout}

theorem Represents.tiles (h : heap.Represents layout) :
    Tiles (heap.start + overhead) layout.blocks layout.stop :=
  ⟨h.consecutive, h.size_pos⟩

/-- The bytes of a heap represent no more than one layout. -/
theorem Represents.unique (h : heap.Represents layout) (hother : heap.Represents other) :
    layout = other := by
  have hstop : layout.stop = other.stop := h.stop_eq.trans hother.stop_eq.symm
  have htiles := h.tiles
  rw [hstop] at htiles
  have hblocks := Memory.blocks_unique htiles hother.tiles h.tagged hother.tagged
  have horder := Memory.linked_unique h.linked hother.linked (h.head_eq.symm.trans hother.head_eq)
  cases layout
  cases other
  simp_all

end Heap

/-! ## Runs -/

namespace Client

variable [Provider σ ε] [LawfulProvider σ] {settings : Settings} {region : Region σ}
  {heap : Heap σ} {turns : List Turn} {client : Client σ}

/-- A heap that is used by legal calls gives the answers that first fit on its layout gives, and
decodes to the layout that first fit leads to. The next legal call is answered, too, and again as
the layout tells. -/
theorem replay_of_run (hcreate : Heap.create settings region = .ok () heap)
    (hrun : Run ⟨heap, []⟩ turns client) :
    ∃ layout, (Layout.initial heap.start settings.chunkSize).replay settings turns =
        (turns.map (·.answer), layout) ∧
      client.heap.Represents layout ∧ (∀ other, client.heap.Represents other → other = layout) ∧
      ∀ call : Call, call.Legal client → ∃ after,
        client.perform call =
            .ok ((layout.perform settings client.heap.toRegion.grants call).1, after) ∧
          after.heap.Represents
            (layout.perform settings client.heap.toRegion.grants call).2 := by
  obtain ⟨hanswers, htracks⟩ := (tracks_of_create hcreate).run hrun
  have hrepresents := (htracks.sound.wellFormed htracks.settled).toRepresents
  refine ⟨_, Prod.ext hanswers rfl, hrepresents, fun other hother => hother.unique hrepresents,
    fun call hlegal => ?_⟩
  obtain ⟨after, hperform, hafter⟩ := htracks.perform hlegal
  exact ⟨after, hperform, (hafter.sound.wellFormed hafter.settled).toRepresents⟩

/-- In every layout that a replay comes to, freeing and growing join one block with its two
neighbours as far as they are free. There are no other free blocks side by side to be merged. -/
theorem joinsNeighbours_of_run (hcreate : Heap.create settings region = .ok () heap)
    (hrun : Run ⟨heap, []⟩ turns client) :
    ((Layout.initial heap.start settings.chunkSize).replay settings turns).2.JoinsNeighbours := by
  obtain ⟨-, htracks⟩ := (tracks_of_create hcreate).run hrun
  exact (htracks.sound.orderly htracks.settled).joinsNeighbours

/-- Blocks of a heap are split, joined with what comes before and behind them, and taken whole; a
request makes the heap grow into its last block, and the next one is refused. -/
theorem replay_of_merging_session : ∃ heap turns client,
    Heap.create ⟨64, 32⟩ (Bounded.region 300) = .ok () heap ∧ Run ⟨heap, []⟩ turns client ∧
      turns.map (·.answer) = [.block 16, .block 48, .block 80, .done, .done, .block 16, .done,
        .block 80, .refused .outOfMemory] ∧
      ∃ layout, (Layout.initial heap.start 64).replay ⟨64, 32⟩ turns =
          (turns.map (·.answer), layout) ∧ client.heap.Represents layout := by
  have hseen : (session ⟨64, 32⟩ (Bounded.region 300) [.allocate 20, .allocate 24, .allocate 24,
      .release 16, .release 48, .allocate 40, .release 80, .allocate 100, .allocate 200]).map
      (fun (_, turns, _) => turns.map (·.answer)) = some [.block 16, .block 48, .block 80, .done,
        .done, .block 16, .done, .block 80, .refused .outOfMemory] := by
    decide +kernel
  obtain ⟨heap, turns, client, hcreate, hrun, hanswers⟩ := exists_of_session hseen
  obtain ⟨layout, hreplay, hrepresents, -⟩ := replay_of_run hcreate hrun
  exact ⟨heap, turns, client, hcreate, hrun, hanswers, layout, hreplay, hrepresents⟩

end Client

end BoundaryTag
