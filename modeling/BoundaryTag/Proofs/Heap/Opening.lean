import BoundaryTag.Proofs.Heap.Requests
import BoundaryTag.Proofs.Heap.Walks
import BoundaryTag.Provider.Reserved

/-!
# How creating a heap ends

Read `Heap.Opens` first: it says how creating a heap is to end, given the settings, the bytes that
were handed out before and what the provider grants. `Heap.opens_create_iff` says that it does end
so, wherever the heap starts, but for one case. A heap whose prologue and epilogue already lie
beyond the largest heap (`Heap.Overrun`) should be refused its first block. But the room that is
left is a difference of addresses, which faults there.
-/

namespace BoundaryTag

open HeapM

/-- Settings that are not valid are rejected for this reason. -/
theorem Settings.check_eq_error_iff {settings : Settings} :
    settings.check = .error .badSettings ↔ ¬ settings.Valid := by
  rw [← check_eq_ok_iff]
  unfold check
  split
  · simp
  · split <;> simp

namespace Heap

variable {σ ε : Type} [Provider σ ε] {settings : Settings} {region : Region σ} {heap : Heap σ}

/-- The heap has one block, which is free and a chunk long, and it starts behind all bytes that were
handed out before. None of these has changed. -/
structure OneBlock (settings : Settings) (region : Region σ) (heap : Heap σ) : Prop where
  settings_eq : heap.settings = settings
  aligned : (heap.start + overhead) % alignment = 0
  stop_eq : heap.stop =
    region.memory.size + openingSize region.memory + settings.chunkSize
  blocks_eq : heap.blocks = .ok [heap.start, heap.start + overhead]
  freeBlocks_eq : heap.freeBlocks = .ok [heap.start + overhead]
  isAllocated_eq : heap.isAllocated (heap.start + overhead) = .ok false
  blockSize_eq : heap.blockSize (heap.start + overhead) = .ok settings.chunkSize
  byte_eq : ∀ address < region.memory.size,
    heap.memory.byte address = region.memory.byte address

/-- How creating a heap of these settings on this region is to end. -/
inductive Opens (settings : Settings) (region : Region σ) :
    EStateM.Result Failure (Heap σ) Unit → Prop
  /-- Settings that are not valid are refused before any memory is asked for. -/
  | rejected (hinvalid : ¬ settings.Valid) :
      Opens settings region (.error (.refused .badSettings) (raw settings region))
  /-- The provider refuses the prologue and the epilogue. -/
  | unopened {after : Heap σ} (hvalid : settings.Valid)
      (hrefused : region.grants (openingSize region.memory) = false) :
      Opens settings region (.error (.refused .outOfMemory) after)
  /-- The heap would be larger than the largest one. -/
  | overfull {after : Heap σ} (hvalid : settings.Valid)
      (hlimit : heapLimit <
        region.memory.size + openingSize region.memory + settings.chunkSize) :
      Opens settings region (.error (.refused .outOfMemory) after)
  /-- The provider refuses the first block. -/
  | unfilled {formatted after : Heap σ} (hvalid : settings.Valid)
      (hformat : format.run (raw settings region) = .ok () formatted)
      (hrefused : formatted.toRegion.grants settings.chunkSize = false) :
      Opens settings region (.error (.refused .outOfMemory) after)
  /-- In all other cases there is a heap. -/
  | opened {formatted heap : Heap σ} (hvalid : settings.Valid)
      (hlimit : region.memory.size + openingSize region.memory + settings.chunkSize ≤ heapLimit)
      (hformat : format.run (raw settings region) = .ok () formatted)
      (hgranted : formatted.toRegion.grants settings.chunkSize = true)
      (hone : heap.OneBlock settings region) :
      Opens settings region (.ok () heap)

/-- The provider grants a prologue and an epilogue that lie beyond the largest heap. -/
structure Overrun (settings : Settings) (region : Region σ) : Prop where
  valid : settings.Valid
  granted : region.grants (openingSize region.memory) = true
  past : heapLimit < region.memory.size + openingSize region.memory

omit [Provider σ ε] in
/-- What a fresh heap looks like to whoever walks over it. -/
theorem Fresh.oneBlock (h : heap.Fresh settings region) : heap.OneBlock settings region := by
  have hfirst : (⟨heap.start + overhead, settings.chunkSize, false⟩ : Block) ∈
      (Layout.initial heap.start settings.chunkSize).blocks := List.mem_cons_self
  have hstart := h.start_eq
  have hstop := h.sound.stop_eq
  simp only [nextPrologue, Layout.initial, overhead, wordSize] at hstart hstop
  constructor
  case settings_eq => exact h.settings_eq
  case aligned =>
    have haligned := h.sound.start_aligned
    simp only [overhead, wordSize, alignment] at *
    omega
  case stop_eq =>
    simp only [openingSize, wordSize]
    omega
  case blocks_eq => exact h.sound.blocks_eq
  case freeBlocks_eq => exact h.sound.freeBlocks_eq
  case isAllocated_eq => exact h.sound.isAllocated_eq hfirst
  case blockSize_eq => exact h.sound.blockSize_eq hfirst
  case byte_eq => exact h.byte_eq

variable [LawfulProvider σ]

/-- Wherever memory can be mapped, a prologue and an epilogue that are granted are laid out. -/
theorem exists_laidOut (settings : Settings) (hmapped : region.memory.size ≤ Reserved.mappable)
    (hgranted : region.grants (openingSize region.memory) = true) :
    ∃ formatted, format.run (raw settings region) = .ok () formatted ∧
      formatted.LaidOut settings region ∧
      formatted.stop = region.memory.size + openingSize region.memory := by
  have hpadding : paddingAfter region.memory.size < 8 := Nat.mod_lt _ (by decide)
  have hend : (nextPrologue region.memory).stop =
      region.memory.size + openingSize region.memory := by
    simp only [nextPrologue, Block.stop, openingSize, overhead, wordSize]
    omega
  have hspace : (nextPrologue region.memory).stop < addressSpace := by
    rw [hend]
    simp only [openingSize, Reserved.mappable, addressSpace, wordSize] at *
    omega
  obtain ⟨formatted, hformat, hlaidOut⟩ : ∃ formatted,
      format.run (raw settings region) = .ok () formatted ∧ formatted.LaidOut settings region :=
    run_format hgranted hspace
  exact ⟨formatted, hformat, hlaidOut, hlaidOut.size_eq.trans hend⟩

/-- Beyond the largest heap, the room for the first block is a negative number. -/
theorem create_of_overrun (hmapped : region.memory.size ≤ Reserved.mappable)
    (h : Overrun settings region) :
    ∃ after, create settings region = .error (.fault .underflow) after := by
  obtain ⟨formatted, hformat, -, hend⟩ := exists_laidOut settings hmapped h.granted
  have hchunk : settings.chunkSize ≤ 0xffff_ffff := h.valid.chunkSize_le
  have hexpand := run_expand_underflow formatted h.valid.chunkSize_aligned (by omega)
    (hend ▸ h.past)
  rw [create_eq_of_valid h.valid, run_bind_of_ok hformat]
  exact ⟨formatted, run_discard_of_error hexpand⟩

/-- In all other places, creating a heap ends as it should. -/
theorem opens_create_of_not_overrun (hmapped : region.memory.size ≤ Reserved.mappable)
    (h : ¬ Overrun settings region) : Opens settings region (create settings region) := by
  by_cases hvalid : settings.Valid
  case neg =>
    have hcreate : create settings region =
        .error (.refused .badSettings) (raw settings region) := by
      rw [create, setUp, run_bind_of_ok (run_get _)]
      dsimp only [raw]
      rw [Settings.check_eq_error_iff.2 hvalid]
      rfl
    rw [hcreate]
    exact .rejected hvalid
  by_cases hopening : region.grants (openingSize region.memory) = true
  case neg =>
    have hrefused := eq_false_of_ne_true hopening
    obtain ⟨after, hformat⟩ : ∃ after,
        format.run (raw settings region) = .error (.refused .outOfMemory) after :=
      run_format_refused hrefused
    rw [create_eq_of_valid hvalid, run_bind_of_error hformat]
    exact .unopened hvalid hrefused
  obtain ⟨formatted, hformat, hlaidOut, hend⟩ := exists_laidOut settings hmapped hopening
  have hlow : formatted.stop ≤ heapLimit :=
    Nat.not_lt.1 fun hpast => h ⟨hvalid, hopening, hend ▸ hpast⟩
  have hsound := hlaidOut.sound hvalid hlow
  have hstop : formatted.start + overhead = formatted.stop := hsound.stop_eq
  have hcreate : create settings region =
      (discard (expand settings.chunkSize)).run formatted := by
    rw [create_eq_of_valid hvalid, run_bind_of_ok hformat]
  by_cases hroom : formatted.start + overhead + settings.chunkSize ≤ heapLimit ∧
    formatted.toRegion.grants settings.chunkSize = true
  · have hsettled : Layout.Settled ⟨[], [], formatted.start + overhead⟩ :=
      ⟨List.isChain_nil, fun bp hbp => absurd hbp List.not_mem_nil⟩
    obtain ⟨heap, hexpand, -⟩ := hsound.run_expand hsettled hvalid.chunkSize_aligned
      (hlaidOut.settings_eq ▸ hvalid.minBlock_le) hroom.1 hroom.2
    rw [run_discard_of_ok hexpand] at hcreate
    have hone := (fresh_of_create hcreate).oneBlock
    rw [hcreate]
    exact .opened hvalid (by omega) hformat hroom.2 hone
  · obtain ⟨other, hexpand, -⟩ := hsound.run_expand_refused hvalid.chunkSize_aligned
      hvalid.chunkSize_le hroom
    rw [hcreate, run_discard_of_error hexpand]
    by_cases hlimit : formatted.start + overhead + settings.chunkSize ≤ heapLimit
    · have hrefused := eq_false_of_ne_true fun hgranted => hroom ⟨hlimit, hgranted⟩
      exact .unfilled hvalid hformat hrefused
    · exact .overfull hvalid (by omega)

/-- Wherever memory can be mapped, creating a heap ends as it should, unless what was handed out
before leaves no room for the prologue and the epilogue. Then it faults. -/
theorem opens_create_iff (hmapped : region.memory.size ≤ Reserved.mappable) :
    (Opens settings region (create settings region) ↔ ¬ Overrun settings region) ∧
      (Overrun settings region →
        ∃ after, create settings region = .error (.fault .underflow) after) := by
  refine ⟨⟨fun hopens hoverrun => ?_, opens_create_of_not_overrun hmapped⟩,
    create_of_overrun hmapped⟩
  obtain ⟨after, hfault⟩ := create_of_overrun hmapped hoverrun
  rw [hfault] at hopens
  exact nomatch hopens

/-- The last place that leaves room for a chunk: the heap ends at the last aligned address. -/
theorem opens_create_below_limit : ∃ region : Region Reserved,
    region = Region.append ⟨⟨0x1_0001_0000⟩, .empty 0⟩ 0xffff_efe8 ∧
      region.memory.size ≤ Reserved.mappable ∧
      Opens .standard region (create .standard region) ∧
      ∃ heap, create .standard region = .ok () heap ∧ heap.stop = 0xffff_fff8 := by
  have hseen : (match create .standard
      (Region.append (⟨⟨0x1_0001_0000⟩, .empty 0⟩ : Region Reserved) 0xffff_efe8) with
    | .ok _ heap => some heap.stop
    | .error _ _ => none) = some 0xffff_fff8 := by
    decide +kernel
  refine ⟨_, rfl, by decide, (opens_create_iff (by decide)).1.2 fun h => ?_, ?_⟩
  · exact absurd h.past (by decide)
  · split at hseen
    · next heap hcreate => exact ⟨heap, hcreate, Option.some.inj hseen⟩
    · exact nomatch hseen

/-- Behind four gigabytes a heap does not fit, but instead of being refused the attempt faults. -/
theorem exists_create_fault : ∃ region : Region Reserved,
    region = Region.append ⟨⟨0x1_0001_0000⟩, .empty 0⟩ 0x1_0000_0000 ∧
      region.memory.size ≤ Reserved.mappable ∧ Settings.standard.Valid ∧
      heapLimit <
        region.memory.size + openingSize region.memory + Settings.standard.chunkSize ∧
      (∃ after, create .standard region = .error (.fault .underflow) after) ∧
      ¬ Opens .standard region (create .standard region) := by
  have hseen : (match create .standard
      (Region.append (⟨⟨0x1_0001_0000⟩, .empty 0⟩ : Region Reserved) 0x1_0000_0000) with
    | .error (.fault .underflow) _ => true
    | _ => false) = true := by
    decide +kernel
  split at hseen
  · next after hcreate =>
    refine ⟨_, rfl, by decide, Settings.check_eq_ok_iff.1 rfl, by decide, ⟨after, hcreate⟩,
      fun hopens => ?_⟩
    rw [hcreate] at hopens
    exact nomatch hopens
  · exact nomatch hseen

end Heap

end BoundaryTag
