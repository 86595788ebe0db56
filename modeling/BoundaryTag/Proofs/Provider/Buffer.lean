import BoundaryTag.Heap.Lemmas
import BoundaryTag.Proofs.Provider.Lockstep
import Mathlib.Order.Bounds.Basic

/-!
# What the providers promise over a run

Whatever is asked of a provider, in whatever order, it keeps the contract of a grower. For regions
this is read off what they append (`Region.contract`). A store goes in lockstep with its region
(`Bounded.lockstep`, `Reserved.lockstep`), because the bytes of its buffer are those of the memory,
the blank ones behind the end included (`Buffer.Holds`); so it keeps the same contract.
`Grower.kept_of_performAll` says what this comes to for both providers. A range comes from the
system: `Reserved.region?_eq_ok_iff` says when there is one and how long it is.
-/

namespace BoundaryTag

/-! ## The contract of a region -/

namespace Region

open Grower

variable {σ κ ε : Type} [Provider σ ε] [Commanded (Region σ) κ] {region : Region σ} {room : Nat}
  {refusal : Nat → ε}

/-- All bytes handed out are seen. -/
@[simp] theorem length_view (region : Region σ) : region.view.length = region.memory.size :=
  Memory.length_slice ..

/-- Appending blank bytes to a region appends them to what is seen. -/
theorem view_append (region : Region σ) (count : Nat) :
    (region.append count).view = region.view ++ List.replicate count region.memory.blank := by
  apply List.ext_getElem?
  intro index
  simp only [view, append, Memory.size_extend, Memory.getElem?_slice, Nat.zero_add,
    Memory.byte_extend]
  by_cases hold : index < region.memory.size
  · rw [if_pos (by omega), List.getElem?_append_left (by simpa using hold), Memory.getElem?_slice,
      if_pos hold, Nat.zero_add]
  · rw [List.getElem?_append_right (by simpa using hold), List.getElem?_replicate,
      Memory.length_slice, region.memory.byte_of_size_le (by omega)]
    split
    next hnew => rw [if_pos (by omega)]
    next hbeyond => rw [if_neg (by omega)]

/-- A region grows as its provider does. -/
theorem grow_eq (count : Nat) (region : Region σ) :
    grow count region = .ok (Provider.grow count region) := rfl

/-- A region whose provider appends zero bytes as long as it has room for them keeps the
contract. -/
theorem contract (hblank : region.memory.blank = 0)
    (hgrow : ∀ count, Provider.grow count region =
      if count > room then .error (refusal count) region
      else .ok region.memory.size (region.append count)) :
    Contract region region.view room refusal := by
  constructor
  case view_eq => rfl
  case granted =>
    intro count hcount
    refine ⟨region.append count, ?_, ?_⟩
    · rw [grow_eq, hgrow, if_neg (by omega), length_view]
    · rw [← hblank, ← view_append]
      rfl
  case refused =>
    intro count hcount
    rw [grow_eq, hgrow, if_pos hcount]
  case written =>
    intro offset values hrange
    rw [length_view] at hrange
    refine ⟨_, if_pos hrange, congrArg Except.ok ?_⟩
    have hslice : (region.memory.write (0 + offset) values).slice 0 region.memory.size = _ :=
      region.memory.slice_write_within values hrange (by omega)
    rw [Nat.zero_add] at hslice
    rw [view, Memory.size_write, hslice]
    rfl

end Region

/-! ## Buffers that hold a memory -/

/-- The buffer has the bytes of the memory up to the capacity, those that have not been handed out
included, and its mark is the end of the memory. -/
structure Buffer.Holds (buffer : Buffer) (capacity : Nat) (memory : Memory) : Prop where
  bytes_eq : buffer.bytes = memory.slice 0 capacity
  used_eq : buffer.used = memory.size
  blank_eq : memory.blank = 0
  size_le : memory.size ≤ capacity
  capacity_lt : capacity < addressSpace

namespace Buffer.Holds

open Grower

variable {σ : Type} {buffer : Buffer} {capacity count : Nat} {memory : Memory} {region : Region σ}

/-- A buffer of zeros holds a memory without bytes. -/
theorem zeros (hcapacity : capacity < addressSpace) :
    (zeros capacity).Holds capacity (.empty 0) := by
  refine ⟨List.ext_getElem? fun index => ?_, rfl, rfl, Nat.zero_le _, hcapacity⟩
  simp only [Buffer.zeros, List.getElem?_replicate, Memory.getElem?_slice, Memory.byte_empty]

/-- The buffer has as many bytes as it has capacity. -/
theorem length_eq (hholds : buffer.Holds capacity memory) : buffer.bytes.length = capacity := by
  rw [hholds.bytes_eq, Memory.length_slice]

/-- What the buffer shows is the memory. -/
theorem view_eq (hholds : buffer.Holds capacity region.memory) :
    buffer.view = .ok region.view := by
  have hused : buffer.used ≤ buffer.bytes.length := by
    rw [hholds.used_eq, hholds.length_eq]
    exact hholds.size_le
  have htake : ((region.memory.slice 0 capacity).drop 0).take region.memory.size = region.view :=
    region.memory.take_drop_slice (by rw [Nat.zero_add]; exact hholds.size_le)
  rw [view, if_pos hused, hholds.bytes_eq, hholds.used_eq]
  exact congrArg Except.ok htake

/-- As long as there are bytes left, the mark moves. -/
theorem advance (hholds : buffer.Holds capacity region.memory)
    (hcount : region.memory.size + count ≤ capacity) :
    ∃ after, buffer.advance count = .ok after ∧
      after.Holds capacity (region.append count).memory := by
  have hlt := hholds.capacity_lt
  refine ⟨{ buffer with used := buffer.used + count }, ?_, ?_⟩
  · rw [Buffer.advance, hholds.used_eq, Address.add_of_lt (by omega)]
    rfl
  · refine ⟨?_, congrArg (· + count) hholds.used_eq, hholds.blank_eq, hcount, hlt⟩
    exact hholds.bytes_eq.trans (Memory.slice_congr fun _ _ _ => rfl)

/-- Bytes of the memory are changed in the buffer alike. -/
theorem write (hholds : buffer.Holds capacity region.memory) (offset : Nat) (values : List UInt8) :
    Alike (fun (changed : Buffer) (after : Region σ) =>
        changed.Holds capacity after.memory ∧ after.provider = region.provider)
      (buffer.write offset values) (region.write offset values) := by
  have hlength : region.view.length = region.memory.size := region.length_view
  have hsize := hholds.size_le
  rw [Buffer.write, hholds.view_eq, ok_bind, hlength, Region.write]
  split
  next hrange =>
    have hslice : (region.memory.write (0 + offset) values).slice 0 capacity = _ :=
      region.memory.slice_write_within values (by omega) (by omega)
    rw [Nat.zero_add, ← hholds.bytes_eq] at hslice
    exact .ok ⟨⟨hslice.symm, by simpa using hholds.used_eq, by simpa using hholds.blank_eq,
      by simpa using hsize, hholds.capacity_lt⟩, rfl⟩
  next => exact .error _

end Buffer.Holds

/-! ## The stores and their regions -/

/-- A bounded store and a region that have handed out the same bytes under the same limit. -/
structure Bounded.Backs (capacity : Nat) (store : Bounded.Store) (region : Region Bounded) :
    Prop where
  holds : store.buffer.Holds capacity region.memory
  provider_eq : region.provider = ⟨capacity, store.limit⟩
  limit_le : store.limit ≤ capacity

/-- A bounded store and its region go in lockstep. -/
theorem Bounded.lockstep (capacity : Nat) : Grower.Lockstep (Bounded.Backs capacity) := by
  constructor
  case view => exact fun hbacks => hbacks.holds.view_eq
  case grow =>
    intro store region count hbacks
    have hlimit := hbacks.limit_le
    have hsize := hbacks.holds.size_le
    have hroom : room region = store.limit - store.buffer.used := by
      rw [room, hbacks.provider_eq, hbacks.holds.used_eq]
    simp only [Grower.grow, Provider.grow, hroom]
    split
    next => exact .ok (.refused ())
    next hcount =>
      rw [hbacks.holds.used_eq] at hcount ⊢
      have hfits : region.memory.size + count ≤ capacity := by omega
      obtain ⟨buffer, hadvance, hbuffer⟩ := hbacks.holds.advance hfits
      rw [hadvance]
      exact .ok (.granted _ ⟨hbuffer, hbacks.provider_eq, hlimit⟩)
  case write =>
    intro store region offset values hbacks
    show Grower.Alike _ (store.buffer.write offset values >>= _) (region.write offset values)
    rw [← bind_pure (region.write offset values)]
    exact (hbacks.holds.write offset values).bind fun ⟨hholds, hsame⟩ =>
      .ok ⟨hholds, hsame.trans hbacks.provider_eq, hbacks.limit_le⟩
  case command =>
    intro store region given hbacks
    cases given with
    | limitTo limit =>
        have hcapacity : region.provider.capacity = store.buffer.bytes.length := by
          rw [hbacks.provider_eq, hbacks.holds.length_eq]
        refine ⟨hbacks.holds, ?_, ?_⟩
        · simp only [Commanded.command, limitTo, hcapacity]
          rw [hbacks.holds.length_eq]
        · simp only [Commanded.command, hbacks.holds.length_eq]
          exact Nat.min_le_right ..
    | stopGrowing =>
        refine ⟨hbacks.holds, ?_, ?_⟩
        · simp only [Commanded.command, stopGrowing, hbacks.provider_eq, hbacks.holds.used_eq]
        · simp only [Commanded.command, hbacks.holds.used_eq]
          exact hbacks.holds.size_le

/-- A reserved range and a region that have handed out the same bytes. -/
structure Reserved.Backs (length : Nat) (store : Reserved.Store) (region : Region Reserved) :
    Prop where
  holds : store.buffer.Holds length region.memory
  length_eq : store.length = length
  provider_eq : region.provider = ⟨length⟩

/-- A reserved range and its region go in lockstep. -/
theorem Reserved.lockstep (length : Nat) : Grower.Lockstep (Reserved.Backs length) := by
  constructor
  case view => exact fun hbacks => hbacks.holds.view_eq
  case grow =>
    intro store region count hbacks
    have hsize := hbacks.holds.size_le
    have hroom : room region = length - region.memory.size := by
      rw [room, hbacks.provider_eq]
    have havailable : Address.sub store.length store.buffer.used =
        .ok (length - region.memory.size) := by
      rw [hbacks.length_eq, hbacks.holds.used_eq, Address.sub_of_le hsize]
    simp only [Grower.grow, Provider.grow, hroom, havailable, ok_bind]
    split
    next => exact .ok (.refused _)
    next hcount =>
      have hfits : region.memory.size + count ≤ length := by omega
      obtain ⟨buffer, hadvance, hbuffer⟩ := hbacks.holds.advance hfits
      rw [hadvance, hbacks.holds.used_eq]
      exact .ok (.granted _ ⟨hbuffer, hbacks.length_eq, hbacks.provider_eq⟩)
  case write =>
    intro store region offset values hbacks
    show Grower.Alike _ (store.buffer.write offset values >>= _) (region.write offset values)
    rw [← bind_pure (region.write offset values)]
    exact (hbacks.holds.write offset values).bind fun ⟨hholds, hsame⟩ =>
      .ok ⟨hholds, hbacks.length_eq, hsame.trans hbacks.provider_eq⟩
  case command => exact fun given => nomatch given

/-! ## Whole runs -/

/-- What each of these steps preserves still holds after all of them. -/
theorem Grower.holds_of_performAll {τ κ ε : Type} [Grower τ κ ε] {holds : τ → Prop}
    {steps : List (Step κ)} {grower last : τ}
    (hstep : ∀ step ∈ steps, ∀ {before after : τ}, holds before →
      perform before step = .ok after → holds after)
    (hholds : holds grower) (hrun : performAll grower steps = .ok last) : holds last := by
  induction steps generalizing grower with
  | nil => exact Except.ok.inj hrun ▸ hholds
  | cons step steps ih =>
      rw [performAll, List.foldlM_cons] at hrun
      obtain ⟨after, hperform, hrest⟩ := exists_of_bind_eq_ok hrun
      exact ih (fun later hlater => hstep later (List.mem_cons_of_mem _ hlater))
        (hstep step List.mem_cons_self hholds hperform) hrest

namespace Grower

variable {τ σ κ ε : Type} [Grower τ κ ε] [Grower (Region σ) κ ε] {fresh region : Region σ}
  {capacity room : Nat} {steps : List (Step κ)} {store : τ} {refusal : Nat → ε}

/-- What steps from a fresh region on make of a store and of the region: these have handed out the
same bytes, no more than the capacity, and keep the contract with the same room. -/
structure Kept (fresh : Region σ) (capacity : Nat) (steps : List (Step κ)) (store : τ)
    (region : Region σ) (room : Nat) (refusal : Nat → ε) : Prop where
  run_eq : performAll fresh steps = .ok region
  length_le : region.view.length ≤ capacity
  store_contract : Contract store region.view room refusal
  region_contract : Contract region region.view room refusal
  progress : ∀ step, (∀ offset values, step = .write offset values →
    offset + values.length ≤ region.view.length) → ∃ after, perform store step = .ok after

/-- A store that goes in lockstep with its region keeps what the region keeps. -/
theorem Lockstep.kept {related : τ → Region σ → Prop} (hlockstep : Lockstep related)
    (hrelated : related store region) (hrun : Grower.performAll fresh steps = .ok region)
    (hlength : region.view.length ≤ capacity)
    (hcontract : Contract region region.view room refusal) :
    Kept fresh capacity steps store region room refusal := by
  have hkept := hlockstep.contract hrelated hcontract
  exact ⟨hrun, hlength, hkept, hcontract, fun step => hkept.exists_perform⟩

end Grower

namespace Bounded

open Grower

/-- Only commands change the limit, and no step takes back what has been handed out. -/
theorem Store.limit_of_perform {store after : Store} {step : Step Command}
    (hcommand : ∀ given, step ≠ .command given) (hperform : perform store step = .ok after) :
    after.limit = store.limit ∧ store.buffer.used ≤ after.buffer.used := by
  cases step with
  | grow count =>
      obtain ⟨answer, hgrow, hafter⟩ := exists_of_bind_eq_ok hperform
      simp only [Grower.grow] at hgrow
      split at hgrow
      next =>
        obtain rfl := Except.ok.inj hgrow
        obtain rfl := Except.ok.inj hafter
        exact ⟨rfl, Nat.le_refl _⟩
      next =>
        obtain ⟨buffer, hadvance, hanswer⟩ := exists_of_bind_eq_ok hgrow
        obtain ⟨used, hused, hbuffer⟩ := exists_of_bind_eq_ok hadvance
        obtain rfl := Except.ok.inj hbuffer
        obtain rfl := Except.ok.inj hanswer
        obtain rfl := Except.ok.inj hafter
        exact ⟨rfl, Address.eq_of_add hused ▸ Nat.le_add_right ..⟩
  | write offset values =>
      obtain ⟨buffer, hwrite, hafter⟩ := exists_of_bind_eq_ok hperform
      obtain ⟨bytes, -, hbuffer⟩ := exists_of_bind_eq_ok hwrite
      obtain rfl := Except.ok.inj hafter
      split at hbuffer
      next => exact ⟨rfl, Except.ok.inj hbuffer ▸ Nat.le_refl _⟩
      next => exact nomatch hbuffer
  | command given => exact absurd rfl (hcommand given)

/-- As much has been handed out as the limit allows. -/
def Store.Stopped (store : Store) : Prop := store.limit ≤ store.buffer.used

/-- Once it has been told to stop, and until it gets a new limit, a store has no room. -/
theorem Store.stopped_of_performAll {store last : Store} {later : List (Step Command)}
    (hlater : ∀ limit, .command (.limitTo limit) ∉ later)
    (hrun : performAll store (.command .stopGrowing :: later) = .ok last) :
    last.Stopped := by
  have hstep : ∀ step ∈ later, ∀ {before after : Store}, before.Stopped →
      perform before step = .ok after → after.Stopped := by
    intro step hmem before after hstopped hperform
    by_cases hcommand : ∃ given, step = .command given
    case pos =>
      obtain ⟨given, rfl⟩ := hcommand
      obtain rfl := Except.ok.inj hperform
      cases given with
      | limitTo limit => exact absurd hmem (hlater limit)
      | stopGrowing => exact Nat.le_refl _
    case neg =>
      obtain ⟨hlimit, hused⟩ := limit_of_perform (not_exists.1 hcommand) hperform
      rw [Store.Stopped, hlimit]
      exact Nat.le_trans hstopped hused
  have hrest : performAll (Commanded.command .stopGrowing store) later = .ok last := hrun
  exact holds_of_performAll hstep (Nat.le_refl _) hrest

/-- What a run of steps makes of a buffer of this capacity: its room is what the limit leaves, only
commands change the limit, and there is no room between a command to stop and a new limit. -/
structure Kept (capacity : Nat) (steps : List (Step Command)) (store : Store)
    (region : Region Bounded) : Prop extends
    Grower.Kept (Bounded.region capacity) capacity steps store region
      (store.limit - region.view.length) fun _ => () where
  limit_kept : ∀ step after, (∀ given, step ≠ .command given) → perform store step = .ok after →
    after.limit = store.limit
  limit_set : ∀ limit, (Commanded.command (.limitTo limit) store).limit = min limit capacity
  stopped : ∀ earlier later, steps = earlier ++ .command .stopGrowing :: later →
    (∀ limit, .command (.limitTo limit) ∉ later) → Contract store region.view 0 fun _ => ()

/-- Whatever is done with a buffer that is fresh, it keeps the contract. -/
theorem exists_kept {capacity : Nat} {steps : List (Step Command)} {store : Store}
    (hcapacity : capacity < addressSpace)
    (hrun : performAll (Store.fresh capacity) steps = .ok store) :
    ∃ region, Kept capacity steps store region := by
  have hfresh : Backs capacity (.fresh capacity) (Bounded.region capacity) :=
    ⟨.zeros hcapacity, rfl, Nat.le_refl _⟩
  obtain ⟨region, hregion, hbacks⟩ :=
    (hrun ▸ (lockstep capacity).performAll hfresh steps).exists_right
  have hlength : region.view.length = region.memory.size := region.length_view
  have hroom : room region = store.limit - region.view.length := by
    rw [room, hbacks.provider_eq, hlength]
  have hcontract : Contract region region.view (store.limit - region.view.length) fun _ => () :=
    hroom ▸ Region.contract hbacks.holds.blank_eq fun _ => rfl
  have hkept := (lockstep capacity).kept hbacks hregion (hlength ▸ hbacks.holds.size_le) hcontract
  refine ⟨region, ?_⟩
  constructor
  case toKept => exact hkept
  case limit_kept =>
    exact fun step after hcommand hperform => (Store.limit_of_perform hcommand hperform).1
  case limit_set => exact fun limit => congrArg (min limit) hbacks.holds.length_eq
  case stopped =>
    intro earlier later hsteps hlater
    rw [hsteps, performAll, List.foldlM_append] at hrun
    obtain ⟨before, -, hrest⟩ := exists_of_bind_eq_ok hrun
    have hstopped := Store.stopped_of_performAll hlater hrest
    have hzero : store.limit - region.view.length = 0 := by
      rw [hlength, ← hbacks.holds.used_eq]
      exact Nat.sub_eq_zero_of_le hstopped
    exact hzero ▸ hkept.store_contract

end Bounded

namespace Reserved

open Grower

/-- What a run of steps makes of a reserved range of this length: its room is what is left of it,
and a refusal says so. -/
def Kept (length : Nat) (steps : List (Step Empty)) (store : Store) (region : Region Reserved) :
    Prop :=
  Grower.Kept ⟨⟨length⟩, .empty 0⟩ length steps store region (length - region.view.length)
    fun count => ⟨count, length - region.view.length⟩

/-- Whatever is done with a range that is fresh, it keeps the contract. -/
theorem exists_kept {length : Nat} {steps : List (Step Empty)} {store : Store}
    (hlength : length < addressSpace)
    (hrun : performAll (Store.fresh length) steps = .ok store) :
    ∃ region, Kept length steps store region := by
  have hfresh : Backs length (.fresh length) ⟨⟨length⟩, .empty 0⟩ := ⟨.zeros hlength, rfl, rfl⟩
  obtain ⟨region, hregion, hbacks⟩ :=
    (hrun ▸ (lockstep length).performAll hfresh steps).exists_right
  have hsize : region.view.length = region.memory.size := region.length_view
  have hroom : room region = length - region.view.length := by
    rw [room, hbacks.provider_eq, hsize]
  have hcontract : Contract region region.view (length - region.view.length) fun count =>
      ⟨count, length - region.view.length⟩ :=
    hroom ▸ Region.contract hbacks.holds.blank_eq fun _ => rfl
  exact ⟨region, (lockstep length).kept hbacks hregion (hsize ▸ hbacks.holds.size_le) hcontract⟩

end Reserved

/-- Both providers keep the contract over every run of requests, writes and commands, as stores and
as regions: what has been handed out is always there, a request is granted exactly when there is
room for it, a granted one appends zero bytes, and a refused one changes nothing. -/
theorem Grower.kept_of_performAll :
    (∀ capacity < addressSpace, ∀ steps store,
      performAll (Bounded.Store.fresh capacity) steps = .ok store →
        ∃ region, Bounded.Kept capacity steps store region) ∧
    (∀ length < addressSpace, ∀ steps store,
      performAll (Reserved.Store.fresh length) steps = .ok store →
        ∃ region, Reserved.Kept length steps store region) :=
  ⟨fun _ hcapacity _ _ hrun => Bounded.exists_kept hcapacity hrun,
    fun _ hlength _ _ hrun => Reserved.exists_kept hlength hrun⟩

/-- A buffer whose limit moves below what has been handed out, and a range that is asked for too
much. -/
theorem Grower.kept_of_shortRuns :
    (∃ region, Bounded.Kept 8
      [.grow 6, .write 2 [7, 9], .command (.limitTo 4), .grow 1, .command .stopGrowing, .grow 0]
      ⟨6, [0, 0, 7, 9, 0, 0, 0, 0], 6⟩ region) ∧
    ∃ region, Reserved.Kept 8 [.grow 3, .write 0 [5], .grow 9, .grow 5]
      ⟨8, [5, 0, 0, 0, 0, 0, 0, 0], 8⟩ region :=
  ⟨kept_of_performAll.1 8 (by decide) _ _ rfl, kept_of_performAll.2 8 (by decide) _ _ rfl⟩

/-! ## Ranges that the system maps -/

namespace Reserved

open Grower

/-- The lengths of whole pages with room for this many bytes, at least one page. -/
def System.wholePages (system : System) (capacity : Nat) : Set Nat :=
  {length | max capacity 1 ≤ length ∧ system.pageSize ∣ length}

theorem System.pageSize_pos (system : System) : 0 < system.pageSize := by
  obtain ⟨exponent, hpow⟩ := system.pageSize_pow
  exact hpow ▸ Nat.two_pow_pos exponent

/-- Rounding up to whole pages takes no more of them than needed. -/
theorem System.isLeast_of_roundUp? {system : System} {capacity length : Nat}
    (h : roundUp? (max capacity 1) system.pageSize = some length) :
    IsLeast (system.wholePages capacity) length ∧ length < addressSpace := by
  obtain ⟨hpages, hroom, hclose, hspace⟩ := roundUp?_spec system.pageSize_pos h
  refine ⟨⟨⟨hroom, hpages⟩, fun other ⟨hother, hotherPages⟩ => ?_⟩, by omega⟩
  obtain ⟨count, rfl⟩ := hpages
  obtain ⟨others, rfl⟩ := hotherPages
  -- one page less would not hold the capacity
  have hlt : count < others + 1 := by
    refine Nat.lt_of_mul_lt_mul_left (a := system.pageSize) ?_
    rw [Nat.mul_add, Nat.mul_one]
    omega
  exact Nat.mul_le_mul_left _ (Nat.le_of_lt_succ hlt)

/-- A whole number of pages that ends before the address space does leaves a page there. -/
theorem System.add_pageSize_le {system : System} {length : Nat} (hpos : 0 < length)
    (hpages : system.pageSize ∣ length) (hspace : length < addressSpace) :
    length + system.pageSize ≤ addressSpace := by
  obtain ⟨exponent, hpow⟩ := system.pageSize_pow
  have hexponent : exponent < 64 := by
    refine (Nat.pow_lt_pow_iff_right (by decide : 1 < 2)).1 ?_
    exact hpow ▸ Nat.lt_of_le_of_lt (Nat.le_of_dvd hpos hpages) hspace
  have hwhole : system.pageSize ∣ addressSpace := hpow ▸ Nat.pow_dvd_pow 2 hexponent.le
  have hle := Nat.le_of_dvd (Nat.sub_pos_of_lt hspace) (Nat.dvd_sub hwhole hpages)
  omega

/-- A range is reserved exactly when its pages fit in the address space and the system maps them. It
has the least number of pages, of which nothing has been handed out. -/
theorem region?_eq_ok_iff {system : System} {capacity : Nat} {fresh : Region Reserved} :
    region? system capacity = .ok fresh ↔
      ∃ length base, fresh = ⟨⟨length⟩, .empty 0⟩ ∧ IsLeast (system.wholePages capacity) length ∧
        length < addressSpace ∧ system.map length = .ok base ∧ base ≠ 0 := by
  constructor
  · intro h
    unfold region? at h
    split at h
    next length hround =>
      obtain ⟨base, hmap, h⟩ := exists_of_bind_eq_ok h
      obtain ⟨hleast, hspace⟩ := System.isLeast_of_roundUp? hround
      split at h
      next => exact nomatch h
      next hbase => exact ⟨length, base, (Except.ok.inj h).symm, hleast, hspace, hmap, hbase⟩
    next => exact nomatch h
  · rintro ⟨length, base, rfl, hleast, hspace, hmap, hbase⟩
    obtain ⟨hroom, hpages⟩ := hleast.1
    have hpage := System.add_pageSize_le (by omega) hpages hspace
    have hpos := system.pageSize_pos
    obtain ⟨rounded, hround⟩ : ∃ rounded,
        roundUp? (max capacity 1) system.pageSize = some rounded :=
      Option.ne_none_iff_exists'.1 (mt roundUp?_eq_none_iff.1 (by omega))
    obtain rfl := (System.isLeast_of_roundUp? hround).1.unique hleast
    rw [region?, hround]
    dsimp only
    rw [hmap, ok_bind, if_neg hbase]
    rfl

/-- Whatever is done with a range that the system has mapped, it keeps the contract. -/
theorem exists_kept_of_region? {system : System} {capacity : Nat} {fresh : Region Reserved}
    {steps : List (Step Empty)} {store : Store} (hregion : region? system capacity = .ok fresh)
    (hrun : performAll (Store.fresh fresh.provider.length) steps = .ok store) :
    ∃ length region, fresh = ⟨⟨length⟩, .empty 0⟩ ∧ capacity ≤ length ∧
      Kept length steps store region := by
  obtain ⟨length, base, rfl, hleast, hspace, -⟩ := region?_eq_ok_iff.1 hregion
  obtain ⟨region, hkept⟩ := exists_kept hspace hrun
  exact ⟨length, region, rfl, (Nat.le_max_left ..).trans hleast.1.1, hkept⟩

end Reserved

end BoundaryTag
