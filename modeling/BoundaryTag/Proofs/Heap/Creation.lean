import BoundaryTag.Proofs.Heap.Growth

/-!
# Creating a heap

`Heap.fresh_of_create` says what creating a heap leads to when it succeeds: a heap with one free
block, behind all bytes that the provider had handed out before, none of which has changed. The way
there is over `Heap.LaidOut`, a heap of which only the prologue and the epilogue have been written
(`Heap.run_format`); its layout has no blocks (`Heap.LaidOut.sound`).
-/

namespace BoundaryTag

open HeapM

namespace Memory

/-- Write this many zeros. -/
def pad (memory : Memory) (start length : Nat) : Memory :=
  memory.write start (List.replicate length 0)

@[simp] theorem size_pad (memory : Memory) (start length : Nat) :
    (memory.pad start length).size = memory.size := by
  rw [pad, size_write]

theorem byte_pad_of_lt (memory : Memory) {start address : Nat} (length : Nat)
    (hlt : address < start) : (memory.pad start length).byte address = memory.byte address :=
  byte_write_of_outside _ _ _ (.inl hlt)

end Memory

/-- Growing a heap without blocks by a first block. -/
theorem Layout.expand_nil (start count : Nat) :
    (Layout.expand ⟨[], [], start + overhead⟩ count).2 = .initial start count := by
  by_cases hcount : 0 < count
  · simp [expand, settle, mergeFree, initial, Block.Covers, Block.stop, hcount]
  · simp [expand, settle, mergeFree, initial, Block.Covers, Block.stop, hcount]

namespace Heap

variable {σ ε : Type} [Provider σ ε] {settings : Settings} {region : Region σ}
  {heap formatted : Heap σ} {count : Nat}

/-- The first header is padded to an aligned block pointer. -/
theorem paddingAfter_aligned (taken : Nat) : (taken + paddingAfter taken + 4) % 8 = 0 := by
  simp only [paddingAfter, alignment, wordSize]
  omega

/-- The prologue of a heap that is laid out behind these bytes. -/
def nextPrologue (memory : Memory) : Block :=
  ⟨memory.size + paddingAfter memory.size + wordSize, overhead, true⟩

/-- A heap of these settings was laid out behind a region, and has no blocks yet. -/
structure LaidOut (settings : Settings) (region : Region σ) (heap : Heap σ) : Prop where
  settings_eq : heap.settings = settings
  start_eq : heap.start = (nextPrologue region.memory).address
  free_eq : heap.free = {}
  size_eq : heap.memory.size = (nextPrologue region.memory).stop
  marked : heap.memory.Marked (nextPrologue region.memory)
  epilogue : heap.memory.tag ((nextPrologue region.memory).stop - wordSize) = .epilogue
  byte_eq : ∀ address < region.memory.size,
    heap.memory.byte address = region.memory.byte address

/-- The heap is the first one of these settings on this region. -/
structure Fresh (settings : Settings) (region : Region σ) (heap : Heap σ) : Prop where
  settings_eq : heap.settings = settings
  start_eq : heap.start = (nextPrologue region.memory).address
  sound : heap.Sound (.initial heap.start settings.chunkSize)
  settled : (Layout.initial heap.start settings.chunkSize).Settled
  byte_eq : ∀ address < region.memory.size,
    heap.memory.byte address = region.memory.byte address

/-! ## Laying out -/

/-- The tags of a block that leaves the address space cannot be written. -/
theorem run_setTags_overflow (heap : Heap σ) {bp size : Nat} (allocated : Bool)
    (haligned : size % 8 = 0) (hfits : size < 0x1_0000_0000) (hlow : 4 ≤ bp)
    (hbp : bp ≤ heap.memory.size) (hspace : addressSpace ≤ bp + size) :
    ∃ after, (setTags bp size allocated).run heap = .error (.fault .overflow) after := by
  have hfooter : (do Address.sub (← Address.add bp size) overhead : Except Fault Nat) =
      .error .overflow := by
    rw [Address.add, if_neg (Nat.not_lt.2 hspace)]
    rfl
  rw [setTags, run_bind_of_ok (run_ofExcept_of_ok (Tag.pack_of_aligned haligned hfits allocated) _),
    run_bind_of_ok (run_ofExcept_of_ok (headerOffset_of_le hlow) _),
    run_bind_of_ok (run_setTagAt (by omega)), hfooter]
  exact ⟨_, rfl⟩

variable [LawfulProvider σ]

/-- Laying out a heap whose addresses are 64-bit numbers writes padding, prologue and epilogue. -/
theorem run_format
    (hgrants : region.grants (paddingAfter region.memory.size + 3 * wordSize) = true)
    (hspace : (nextPrologue region.memory).stop < addressSpace) :
    ∃ formatted, format.run (raw settings region) = .ok () formatted ∧
      formatted.LaidOut settings region := by
  obtain ⟨grown, hgrow, hsize, hbytes⟩ : ∃ grown, (grow _).run (raw settings region) = _ ∧ _ :=
    run_grow_of_grants hgrants
  have haddress : (nextPrologue region.memory).address =
    region.memory.size + paddingAfter region.memory.size + wordSize := rfl
  have hnewSize : (nextPrologue region.memory).size = overhead := rfl
  have hallocated : (nextPrologue region.memory).allocated = true := rfl
  have hstop : (nextPrologue region.memory).stop =
    (nextPrologue region.memory).address + overhead := rfl
  -- from here on, only these four facts about the prologue matter
  obtain ⟨new, hnew⟩ : ∃ new, nextPrologue region.memory = new := ⟨_, rfl⟩
  rw [hnew] at haddress hnewSize hallocated hstop hspace
  simp only [raw, wordSize, overhead] at hsize hbytes haddress hnewSize hstop
  have hclose := run_close
    { raw settings region with
      toRegion := ⟨grown.provider,
        grown.memory.pad region.memory.size (paddingAfter region.memory.size)⟩
      start := new.address } new (by omega) (by omega) (by omega) (by omega)
    (by simp only [Memory.size_pad]; omega) hspace
  refine ⟨{ raw settings region with
      toRegion := ⟨grown.provider,
        (grown.memory.pad region.memory.size (paddingAfter region.memory.size)).close new⟩
      start := new.address }, ?_, rfl, by rw [hnew], rfl, ?_, ?_, ?_, fun address hinside => ?_⟩
  · rw [format, run_bind_of_ok (run_get _)]
    dsimp only [raw] at hgrow ⊢
    rw [run_bind_of_ok hgrow, run_bind_of_ok (run_modify _ _),
      run_bind_of_ok (run_writeBytes (by simp; omega))]
    rw [haddress, hnewSize, hallocated] at hclose
    rw [haddress]
    exact hclose
  · simp only [hnew, Memory.size_close, Memory.size_pad]
    omega
  · rw [hnew]
    dsimp only
    refine Memory.marked_close (by omega) (by omega) ?_
    rw [Memory.size_pad]
    omega
  · rw [hnew]
    dsimp only
    refine Memory.tag_close (by omega) ?_
    rw [Memory.size_pad]
    omega
  · dsimp only
    rw [Memory.byte_close_of_lt (by omega) (by omega) (by omega), Memory.byte_pad_of_lt _ _ hinside,
      hbytes address hinside]

/-- A heap that would leave the address space cannot be laid out. -/
theorem run_format_overflow
    (hgrants : region.grants (paddingAfter region.memory.size + 3 * wordSize) = true)
    (hspace : addressSpace ≤ (nextPrologue region.memory).stop) :
    ∃ after, format.run (raw settings region) = .error (.fault .overflow) after := by
  obtain ⟨grown, hgrow, hsize, -⟩ : ∃ grown, (grow _).run (raw settings region) = _ ∧ _ :=
    run_grow_of_grants hgrants
  have hstop : (nextPrologue region.memory).stop =
    region.memory.size + paddingAfter region.memory.size + wordSize + overhead := rfl
  simp only [raw, wordSize] at hsize
  rw [format, run_bind_of_ok (run_get _)]
  dsimp only [raw] at hgrow ⊢
  rw [run_bind_of_ok hgrow, run_bind_of_ok (run_modify _ _),
    run_bind_of_ok (run_writeBytes (by simp; omega))]
  obtain ⟨after, htags⟩ := run_setTags_overflow
    { raw settings region with
      toRegion := ⟨grown.provider,
        grown.memory.pad region.memory.size (paddingAfter region.memory.size)⟩
      start := region.memory.size + paddingAfter region.memory.size + wordSize } true (by simp)
    (by simp) (by simp) (by simp only [Memory.size_pad, wordSize]; omega) (hstop ▸ hspace)
  exact ⟨after, run_bind_of_error htags⟩

/-- Without memory, a heap cannot be laid out. -/
theorem run_format_refused
    (hrefused : region.grants (paddingAfter region.memory.size + 3 * wordSize) = false) :
    ∃ after, format.run (raw settings region) = .error (.refused .outOfMemory) after := by
  obtain ⟨after, hgrow, -⟩ : ∃ after, (grow _).run (raw settings region) = _ ∧ _ :=
    run_grow_of_not_grants hrefused
  rw [format, run_bind_of_ok (run_get _)]
  exact ⟨_, run_bind_of_error hgrow⟩

/-- When laying out a heap ends, there is a prologue with an epilogue behind it. -/
theorem laidOut_of_format (hformat : format.run (raw settings region) = .ok () formatted) :
    formatted.LaidOut settings region := by
  by_cases hgrants : region.grants (paddingAfter region.memory.size + 3 * wordSize) = true
  · by_cases hspace : (nextPrologue region.memory).stop < addressSpace
    · obtain ⟨other, hother, hlaidOut⟩ :
          ∃ other, format.run (raw settings region) = .ok () other ∧ _ :=
        run_format hgrants hspace
      rw [hother] at hformat
      obtain ⟨-, rfl⟩ := EStateM.Result.ok.inj hformat
      exact hlaidOut
    · obtain ⟨after, hfault⟩ := run_format_overflow hgrants (Nat.not_lt.1 hspace)
      rw [hfault] at hformat
      exact nomatch hformat
  · obtain ⟨after, hrefused⟩ := run_format_refused (eq_false_of_ne_true hgrants)
    rw [hrefused] at hformat
    exact nomatch hformat

/-! ## The first block -/

omit [LawfulProvider σ] in
/-- A heap past its largest size cannot grow. -/
theorem run_expand_underflow (heap : Heap σ) (haligned : count % 8 = 0)
    (hspace : count + 7 < 0x1_0000_0000_0000_0000) (hpast : heapLimit < heap.stop) :
    (expand count).run heap = .error (.fault .underflow) heap := by
  have hroom : Address.sub heapLimit heap.stop = .error .underflow := if_neg (Nat.not_le.2 hpast)
  rw [expand, appendFree, roundUp?_of_aligned haligned hspace]
  dsimp only
  exact run_bind_of_error (run_bind_of_error (run_observe_of_error hroom))

namespace LaidOut

omit [Provider σ ε] [LawfulProvider σ] in
/-- A heap that was laid out spells a layout without blocks. -/
theorem sound (h : formatted.LaidOut settings region) (hvalid : settings.Valid)
    (hlimit : formatted.stop ≤ heapLimit) :
    formatted.Sound ⟨[], [], formatted.start + overhead⟩ := by
  have hstop : formatted.start + overhead = formatted.stop := by
    rw [h.start_eq, Heap.stop, h.size_eq]
    rfl
  have hprologue : formatted.prologue = nextPrologue region.memory := by
    rw [prologue, h.start_eq]
    rfl
  have hpadding := paddingAfter_aligned region.memory.size
  have hstart : formatted.start =
    region.memory.size + paddingAfter region.memory.size + 4 := h.start_eq
  exact
    { settings_valid := h.settings_eq ▸ hvalid
      start_pos := by omega
      start_aligned := by rw [hstart]; exact hpadding
      stop_eq := hstop
      stop_le := hlimit
      tiles := tiles_nil.2 rfl
      minBlock_le := by simp
      size_aligned := by simp
      prologue_marked := hprologue ▸ h.marked
      marked := by simp
      epilogue := by rw [← h.epilogue, h.start_eq]; rfl
      lists := ⟨trivial, by rw [h.free_eq]; rfl, by rw [h.free_eq]; rfl⟩
      order_nodup := List.nodup_nil
      order_free := by simp }

/-- With its first block, a heap that was laid out is a fresh heap. -/
theorem fresh (h : formatted.LaidOut settings region) (hvalid : settings.Valid)
    (hexpand : (discard (expand settings.chunkSize)).run formatted = .ok () heap) :
    heap.Fresh settings region := by
  have hchunk : settings.chunkSize ≤ 0xffff_ffff := hvalid.chunkSize_le
  have hchunkAligned : settings.chunkSize % 8 = 0 := hvalid.chunkSize_aligned
  by_cases hlimit : formatted.stop ≤ heapLimit
  · have hsound := h.sound hvalid hlimit
    have hsettled : Layout.Settled ⟨[], [], formatted.start + overhead⟩ :=
      ⟨List.isChain_nil, fun bp hbp => absurd hbp List.not_mem_nil⟩
    by_cases hroom : formatted.start + overhead + settings.chunkSize ≤ heapLimit ∧
      formatted.toRegion.grants settings.chunkSize = true
    · obtain ⟨grown, hgrow, hgrown, hgrownSettled, hspares⟩ := hsound.run_expand hsettled
        hchunkAligned (h.settings_eq ▸ hvalid.minBlock_le) hroom.1 hroom.2
      rw [run_discard_of_ok hgrow] at hexpand
      obtain ⟨-, rfl⟩ := EStateM.Result.ok.inj hexpand
      rw [Layout.expand_nil, ← hspares.start_eq] at hgrown hgrownSettled
      refine ⟨hspares.settings_eq.trans h.settings_eq, hspares.start_eq.trans h.start_eq, hgrown,
        hgrownSettled, fun address hinside => ?_⟩
      refine (hspares.byte_eq_below address ?_).trans (h.byte_eq address hinside)
      rw [h.start_eq]
      simp only [nextPrologue, wordSize]
      omega
    · obtain ⟨after, hrefused, -⟩ := hsound.run_expand_refused hchunkAligned hchunk hroom
      rw [run_discard_of_error hrefused] at hexpand
      exact nomatch hexpand
  · have hunderflow := run_expand_underflow formatted hchunkAligned (by omega) (Nat.not_le.1 hlimit)
    rw [run_discard_of_error hunderflow] at hexpand
    exact nomatch hexpand

end LaidOut

/-- When a heap has been created, it is a fresh one. -/
theorem fresh_of_create (hcreate : create settings region = .ok () heap) :
    heap.Fresh settings region := by
  rw [create, setUp, run_bind_of_ok (run_get _)] at hcreate
  dsimp only [raw] at hcreate
  cases hcheck : settings.check with
  | error reason =>
      rw [hcheck] at hcreate
      exact nomatch hcreate
  | ok _ =>
      have hvalid : settings.Valid := Settings.check_eq_ok_iff.1 hcheck
      rw [hcheck] at hcreate
      obtain ⟨_, formatted, hformat, hexpand⟩ := exists_of_run_bind hcreate
      exact (laidOut_of_format hformat).fresh hvalid hexpand

end Heap

end BoundaryTag
