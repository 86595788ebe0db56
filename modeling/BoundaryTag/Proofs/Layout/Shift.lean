import BoundaryTag.Client.Script
import BoundaryTag.Layout.Mirror

/-!
# Layouts at other addresses

Nothing that is done to a layout depends on where it begins. `Layout.perform_shift` says so of the
calls: what a call does to a layout that was moved up is what the same call, with its block named by
the address there, does to the layout as it was. The only number that is not moved along is the
limit of the heap, which the layout must not run into. Of what is granted, a call only depends on
the answer to its one request (`Layout.perform_congr`).
-/

namespace BoundaryTag

variable {settings : Settings} {granted : Nat → Bool} {request address size minBlock count : Nat}

/-! ## Blocks -/

/-- The block moved up by this many bytes. -/
def Block.shift (distance : Nat) (block : Block) : Block :=
  { block with address := block.address + distance }

namespace Block

variable {block : Block}

@[simp] theorem address_shift (distance : Nat) (block : Block) :
    (block.shift distance).address = block.address + distance := rfl

@[simp] theorem size_shift (distance : Nat) (block : Block) :
    (block.shift distance).size = block.size := rfl

@[simp] theorem allocated_shift (distance : Nat) (block : Block) :
    (block.shift distance).allocated = block.allocated := rfl

theorem markFree_shift (distance : Nat) (block : Block) :
    markFree (address + distance) (block.shift distance) =
      (markFree address block).shift distance := by
  unfold markFree
  rw [address_shift]
  by_cases heq : block.address = address
  · rw [if_pos heq, if_pos (congrArg (· + distance) heq)]
    rfl
  · rw [if_neg heq, if_neg fun hsame => heq (Nat.add_right_cancel hsame)]

theorem covers_shift (distance : Nat) (block : Block) :
    (block.shift distance).Covers (address + distance) ↔ block.Covers address := by
  simp only [Covers, stop, address_shift, size_shift]
  omega

theorem carve_shift (distance : Nat) (block : Block) :
    (block.shift distance).carve size minBlock =
      (block.carve size minBlock).map (shift distance) := by
  unfold carve
  rw [size_shift]
  split
  · simp only [shift, List.map_cons, List.map_nil, Nat.add_right_comm]
  · rfl

end Block

theorem freeAddresses_shift (distance : Nat) (blocks : List Block) :
    freeAddresses (blocks.map (Block.shift distance)) =
      (freeAddresses blocks).map (· + distance) := by
  rw [freeAddresses, freeAddresses, List.filter_map, List.map_map, List.map_map]
  rfl

theorem mergeFree_shift (distance : Nat) (blocks : List Block) :
    mergeFree (blocks.map (Block.shift distance)) =
      (mergeFree blocks).map (Block.shift distance) := by
  induction blocks with
  | nil => rfl
  | cons block blocks ih =>
      rw [List.map_cons, mergeFree, mergeFree, ih]
      cases mergeFree blocks with
      | nil => rfl
      | cons next rest =>
          show (if _ then _ else _) = List.map _ (if _ then _ else _)
          rw [Block.allocated_shift, Block.allocated_shift]
          split <;> rfl

namespace Layout

/-- The layout moved up by this many bytes. -/
def shift (distance : Nat) (layout : Layout) : Layout where
  blocks := layout.blocks.map (Block.shift distance)
  order := layout.order.map (· + distance)
  stop := layout.stop + distance

variable {layout : Layout}

/-! ## Questions -/

theorem sizeAt_shift (distance : Nat) (layout : Layout) (address : Nat) :
    (layout.shift distance).sizeAt (address + distance) = layout.sizeAt address := by
  have hfind : (layout.shift distance).block? (address + distance) =
      (layout.block? address).map (Block.shift distance) := by
    unfold block?
    rw [shift, List.find?_map]
    congr 2
    funext block
    simp
  rw [sizeAt, hfind, sizeAt, Option.map_map]
  rfl

theorem firstFit_shift (distance : Nat) (layout : Layout) (size : Nat) :
    (layout.shift distance).firstFit size = (layout.firstFit size).map (· + distance) := by
  unfold firstFit
  show (layout.order.map (· + distance)).find? _ = _
  rw [List.find?_map]
  congr 2
  funext listed
  rw [Function.comp_apply, sizeAt_shift]

/-! ## Steps -/

theorem settle_shift (distance : Nat) (layout : Layout) (address : Nat) :
    (layout.shift distance).settle (address + distance) =
      ((layout.settle address).1 + distance, (layout.settle address).2.shift distance) := by
  have hcovers : ((fun block : Block => decide (block.Covers (address + distance))) ∘
      Block.shift distance) = fun block => decide (block.Covers address) := by
    funext block
    exact decide_eq_decide.2 (block.covers_shift distance)
  have hmerged : ((((mergeFree layout.blocks).map (Block.shift distance)).find?
      (·.Covers (address + distance))).map (·.address)).getD (address + distance) =
      (((mergeFree layout.blocks).find? (·.Covers address)).map (·.address)).getD address +
        distance := by
    rw [List.find?_map, hcovers, Option.map_map]
    cases (mergeFree layout.blocks).find? (·.Covers address) <;> rfl
  simp only [settle, shift, mergeFree_shift, hmerged, freeAddresses_shift, List.map_cons]
  congr 3
  rw [List.filter_map]
  congr 1
  refine List.filter_congr fun listed _ => ?_
  simp

theorem expand_shift (distance : Nat) (layout : Layout) (count : Nat) :
    (layout.shift distance).expand count =
      ((layout.expand count).1 + distance, (layout.expand count).2.shift distance) := by
  rw [expand, expand, ← settle_shift]
  simp only [shift, List.map_append, List.map_cons, List.map_nil, Block.shift, Nat.add_right_comm]

theorem occupy_shift (distance : Nat) (layout : Layout) (address size minBlock : Nat) :
    (layout.shift distance).occupy (address + distance) size minBlock =
      (layout.occupy address size minBlock).shift distance := by
  have hblocks : ((layout.blocks.map (Block.shift distance)).flatMap fun block =>
      if block.address = address + distance then block.carve size minBlock else [block]) =
      (layout.blocks.flatMap fun block =>
        if block.address = address then block.carve size minBlock else [block]).map
        (Block.shift distance) := by
    rw [List.flatMap_map, List.map_flatMap]
    refine List.flatMap_congr fun block _ => ?_
    rw [Block.address_shift, Block.carve_shift]
    by_cases heq : block.address = address
    · rw [if_pos heq, if_pos (congrArg (· + distance) heq)]
    · rw [if_neg heq, if_neg fun hsame => heq (Nat.add_right_cancel hsame)]
      rfl
  have horder : (layout.order.map (· + distance)).erase (address + distance) =
      (layout.order.erase address).map (· + distance) :=
    (List.map_erase (fun _ _ => Nat.add_right_cancel) layout.order).symm
  unfold occupy
  rw [sizeAt_shift]
  simp only [shift, hblocks, horder]
  split
  · rw [List.map_cons, Nat.add_right_comm]
  · rfl

theorem release_shift (distance : Nat) (layout : Layout) (address : Nat) :
    (layout.shift distance).release (address + distance) =
      (layout.release address).shift distance := by
  have hmark : (layout.blocks.map (Block.shift distance)).map
      (Block.markFree (address + distance)) =
      (layout.blocks.map (Block.markFree address)).map (Block.shift distance) := by
    rw [List.map_map, List.map_map]
    exact List.map_congr_left fun block _ => block.markFree_shift distance
  have hsettle := settle_shift distance
    { layout with blocks := layout.blocks.map (Block.markFree address) } address
  rw [shift, ← hmark] at hsettle
  exact congrArg Prod.snd hsettle

/-! ## Calls -/

/-- The bytes that a request asks the provider for, if no listed block is large enough. -/
def growthFor (layout : Layout) (settings : Settings) (request : Nat) : Option Nat :=
  if request = 0 then none
  else match blockSizeFor? request settings.minBlock with
    | none => none
    | some size =>
        if (layout.firstFit size).isSome then none else some (max size settings.chunkSize)

theorem growthFor_shift (distance : Nat) (layout : Layout) (settings : Settings) (request : Nat) :
    (layout.shift distance).growthFor settings request = layout.growthFor settings request := by
  simp only [growthFor, firstFit_shift, Option.isSome_map]

/-- A request does the same to a layout that was moved up, as long as it does not run into the limit
of the heap there. -/
theorem allocate_shift (distance : Nat) (layout : Layout) (settings : Settings)
    (granted : Nat → Bool) (request : Nat)
    (hroom : ∀ count ∈ layout.growthFor settings request,
      layout.stop + distance + count ≤ heapLimit) :
    (layout.shift distance).allocate settings granted request =
      (layout.allocate settings granted request).map
        fun outcome => (outcome.1 + distance, outcome.2.shift distance) := by
  unfold allocate
  by_cases hzero : request = 0
  · rw [if_pos hzero, if_pos hzero]
    rfl
  · rw [if_neg hzero, if_neg hzero]
    cases hsize : blockSizeFor? request settings.minBlock with
    | none => rfl
    | some size =>
        dsimp only
        rw [firstFit_shift]
        cases hfit : layout.firstFit size with
        | some address =>
            show Except.ok _ = Except.ok _
            rw [occupy_shift]
        | none =>
            have hgrowth : layout.growthFor settings request =
                some (max size settings.chunkSize) := by
              rw [growthFor, if_neg hzero, hsize]
              dsimp only
              rw [hfit]
              rfl
            have hlimit : layout.stop + distance + max size settings.chunkSize ≤ heapLimit :=
              hroom _ hgrowth
            have hstop : (layout.shift distance).stop = layout.stop + distance := rfl
            dsimp only [Option.map_none]
            by_cases hgranted : granted (max size settings.chunkSize) = true
            · rw [if_pos ⟨hstop ▸ hlimit, hgranted⟩, if_pos ⟨by omega, hgranted⟩, expand_shift]
              show Except.ok _ = Except.ok _
              rw [occupy_shift]
            · rw [if_neg fun h => hgranted h.2, if_neg fun h => hgranted h.2]
              rfl

theorem reallocate_shift (distance : Nat) (layout : Layout) (settings : Settings)
    (granted : Nat → Bool) (address request : Nat)
    (hroom : ∀ count ∈ layout.growthFor settings request,
      layout.stop + distance + count ≤ heapLimit) :
    (layout.shift distance).reallocate settings granted (address + distance) request =
      (layout.reallocate settings granted address request).map
        fun outcome => (outcome.1 + distance, outcome.2.shift distance) := by
  rw [reallocate, reallocate, allocate_shift distance layout settings granted request hroom]
  cases layout.allocate settings granted request with
  | error reason => rfl
  | ok outcome =>
      show Except.ok (_, (outcome.2.shift distance).release (address + distance)) = _
      rw [release_shift]
      rfl

/-- A request only depends on whether what it asks for is granted. -/
theorem allocate_congr {granted other : Nat → Bool}
    (hsame : ∀ count ∈ layout.growthFor settings request, granted count = other count) :
    layout.allocate settings granted request = layout.allocate settings other request := by
  unfold growthFor at hsame
  unfold allocate
  by_cases hzero : request = 0
  · rw [if_pos hzero, if_pos hzero]
  · rw [if_neg hzero] at hsame ⊢
    rw [if_neg hzero]
    cases hsize : blockSizeFor? request settings.minBlock with
    | none => rfl
    | some size =>
        rw [hsize] at hsame
        dsimp only at hsame ⊢
        cases hfit : layout.firstFit size with
        | some address => rfl
        | none =>
            rw [hfit] at hsame
            dsimp only
            rw [hsame _ rfl]

theorem initial_eq_shift (start size : Nat) :
    initial start size = (initial 0 size).shift start := by
  simp [initial, shift, Block.shift, Nat.add_comm, Nat.add_left_comm]

end Layout

/-- The answer with its block moved up by this many bytes. -/
def Answer.shift (distance : Nat) : Answer → Answer
  | .block address => .block (address + distance)
  | .done => .done
  | .refused reason => .refused reason

/-- The call with its block moved up by this many bytes. -/
def Call.shift (distance : Nat) : Call → Call
  | .allocate request => .allocate request
  | .release address => .release (address + distance)
  | .reallocate address request => .reallocate (address + distance) request
  | .write address offset bytes => .write (address + distance) offset bytes

namespace Layout

variable {layout : Layout}

theorem outcome_shift (distance : Nat) (layout : Layout) (result : Except Refusal (Nat × Layout)) :
    (layout.shift distance).outcome
        (result.map fun found => (found.1 + distance, found.2.shift distance)) =
      ((layout.outcome result).1.shift distance, (layout.outcome result).2.shift distance) := by
  cases result <;> rfl

/-- A call does the same to a layout that was moved up, as long as it does not run into the limit of
the heap there. -/
theorem perform_shift (distance : Nat) (layout : Layout) (settings : Settings)
    (granted : Nat → Bool) (call : Call)
    (hroom : ∀ count ∈ layout.growthFor settings call.request,
      layout.stop + distance + count ≤ heapLimit) :
    (layout.shift distance).perform settings granted (call.shift distance) =
      ((layout.perform settings granted call).1.shift distance,
        (layout.perform settings granted call).2.shift distance) := by
  cases call with
  | allocate request =>
      have hallocate := allocate_shift distance layout settings granted request hroom
      show (layout.shift distance).outcome _ = _
      rw [hallocate, outcome_shift]
      rfl
  | release address =>
      show (Answer.done, (layout.shift distance).release (address + distance)) = _
      rw [release_shift]
      rfl
  | reallocate address request =>
      have hreallocate := reallocate_shift distance layout settings granted address request hroom
      show (layout.shift distance).outcome _ = _
      rw [hreallocate, outcome_shift]
      rfl
  | write address offset bytes => rfl

/-- A call only depends on whether what it asks for is granted. -/
theorem perform_congr {granted other : Nat → Bool} {call : Call}
    (hsame : ∀ count ∈ layout.growthFor settings call.request, granted count = other count) :
    layout.perform settings granted call = layout.perform settings other call := by
  cases call with
  | allocate request => exact congrArg layout.outcome (allocate_congr hsame)
  | release address => rfl
  | reallocate address request =>
      have hallocate : layout.allocate settings granted request =
          layout.allocate settings other request := allocate_congr hsame
      rw [perform, perform, reallocate, reallocate, hallocate]
  | write address offset bytes => rfl

end Layout

end BoundaryTag
