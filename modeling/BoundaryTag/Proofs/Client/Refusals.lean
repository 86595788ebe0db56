import BoundaryTag.Client.Session
import BoundaryTag.Proofs.Client.Steps
import BoundaryTag.Proofs.Heap.Walks
import BoundaryTag.Provider.Bounded

/-!
# When a request is refused

A request for memory ends in one of three ways, and which one can be told before it is made: read
`Heap.Exhausted` and `Heap.Exact` first. `Client.exact_of_reachable` says that allocating and moving
follow this rule on every heap in use, and that a request that is refused changes nothing.
-/

namespace BoundaryTag

variable {σ ε : Type} {settings : Settings} {region : Region σ} {client : Client σ}
  {layout : Layout} {heap : Heap σ} {block : Block} {request size count : Nat}
  {granted : Nat → Bool}

/-! ## The rule -/

namespace Heap

/-- All blocks of the free list are smaller than this. -/
def AllSmaller (heap : Heap σ) (size : Nat) : Prop :=
  ∃ sizes, heap.lookAtFree heap.blockSize = .ok sizes ∧ ∀ listed ∈ sizes, listed < size

variable [Provider σ ε]

/-- The heap cannot get this many bytes more: it would grow beyond the largest heap, or the provider
refuses. -/
def Stuck (heap : Heap σ) (count : Nat) : Prop :=
  heapLimit < heap.stop + count ∨ heap.toRegion.grants count = false

/-- There is no memory for a request: no tag can hold the size of its block, or no listed block is
large enough and the heap cannot grow. -/
def Exhausted (heap : Heap σ) (request : Nat) : Prop :=
  blockSizeFor? request heap.settings.minBlock = none ∨
    ∃ size, blockSizeFor? request heap.settings.minBlock = some size ∧ heap.AllSmaller size ∧
      heap.Stuck (max size heap.settings.chunkSize)

/-- An action that asks for memory is refused for being empty exactly when it is, for want of memory
exactly when there is none, and carried out in all other cases. When it fails, the heap is the same
as before, its provider apart. -/
structure Exact (heap : Heap σ) (request : Nat) (action : HeapM σ Nat) : Prop where
  emptyRequest_iff : (∃ after, action.run heap = .error (.refused .emptyRequest) after) ↔
    request = 0
  outOfMemory_iff : (∃ after, action.run heap = .error (.refused .outOfMemory) after) ↔
    0 < request ∧ heap.Exhausted request
  ok_iff : (∃ address after, action.run heap = .ok address after) ↔
    0 < request ∧ ¬ heap.Exhausted request
  kept : ∀ failure after, action.run heap = .error failure after →
    after = { heap with provider := after.provider }

end Heap

/-! ## The rule on layouts -/

namespace Layout

/-- There is no memory for a request, given which requests for more memory are granted. -/
def Exhausted (layout : Layout) (settings : Settings) (granted : Nat → Bool) (request : Nat) :
    Prop :=
  blockSizeFor? request settings.minBlock = none ∨
    ∃ size, blockSizeFor? request settings.minBlock = some size ∧ layout.firstFit size = none ∧
      ¬ (layout.stop + max size settings.chunkSize ≤ heapLimit ∧
        granted (max size settings.chunkSize) = true)

/-- The three ways in which an allocation ends. -/
theorem allocate_cases (layout : Layout) (settings : Settings) (granted : Nat → Bool)
    (request : Nat) :
    request = 0 ∧ layout.allocate settings granted request = .error .emptyRequest ∨
      0 < request ∧ layout.Exhausted settings granted request ∧
        layout.allocate settings granted request = .error .outOfMemory ∨
      0 < request ∧ ¬ layout.Exhausted settings granted request ∧
        ∃ outcome, layout.allocate settings granted request = .ok outcome := by
  unfold allocate Exhausted
  by_cases hzero : request = 0
  · exact .inl ⟨hzero, if_pos hzero⟩
  · rw [if_neg hzero]
    refine .inr ?_
    have hpos : 0 < request := Nat.pos_of_ne_zero hzero
    cases hsize : blockSizeFor? request settings.minBlock with
    | none => exact .inl ⟨hpos, .inl rfl, rfl⟩
    | some size =>
        dsimp only
        cases hfit : layout.firstFit size with
        | some address =>
            refine .inr ⟨hpos, ?_, _, rfl⟩
            rintro (hnone | ⟨other, hother, hnone, -⟩)
            · exact nomatch hnone
            · obtain rfl := Option.some.inj hother
              rw [hfit] at hnone
              exact nomatch hnone
        | none =>
            by_cases hgrows : layout.stop + max size settings.chunkSize ≤ heapLimit ∧
                granted (max size settings.chunkSize) = true
            · refine .inr ⟨hpos, ?_, ?_⟩
              · rintro (hnone | ⟨other, hother, -, hstuck⟩)
                · exact nomatch hnone
                · obtain rfl := Option.some.inj hother
                  exact hstuck hgrows
              · dsimp only
                rw [if_pos hgrows]
                exact ⟨_, rfl⟩
            · exact .inl ⟨hpos, .inr ⟨size, rfl, hfit, hgrows⟩, if_neg hgrows⟩

end Layout

/-! ## The rule on heaps -/

namespace Heap

/-- What first fit on the layout does not find, the sizes of the listed blocks rule out. -/
theorem Sound.allSmaller_iff (h : heap.Sound layout) :
    heap.AllSmaller size ↔ layout.firstFit size = none := by
  have hsizes : heap.lookAtFree heap.blockSize = .ok (layout.order.map layout.sizeAt) :=
    h.lookAtFree_eq fun _ => h.blockSize_listed
  rw [AllSmaller, hsizes, Layout.firstFit, List.find?_eq_none]
  constructor
  · rintro ⟨sizes, hsame, hsmaller⟩ bp hbp
    obtain rfl := Except.ok.inj hsame
    have hlt := hsmaller _ (List.mem_map_of_mem hbp)
    simpa using hlt
  · intro hnone
    refine ⟨_, rfl, fun listed hlisted => ?_⟩
    obtain ⟨bp, hbp, rfl⟩ := List.mem_map.1 hlisted
    simpa using hnone bp hbp

variable [Provider σ ε]

/-- Whether there is memory for a request is told by the layout. -/
theorem Sound.exhausted_iff (h : heap.Sound layout) : heap.Exhausted request ↔
    layout.Exhausted heap.settings heap.toRegion.grants request := by
  have hstuck : ∀ count, heap.Stuck count ↔
      ¬ (layout.stop + count ≤ heapLimit ∧ heap.toRegion.grants count = true) := by
    intro count
    rw [Stuck, h.stop_eq, not_and_or, Nat.not_le, Bool.not_eq_true]
  simp only [Exhausted, Layout.Exhausted, h.allSmaller_iff, hstuck]

/-- An action that ends as the layout tells follows the rule. -/
theorem Exact.of_allocate (h : heap.Sound layout) {action : HeapM σ Nat}
    (hok : ∀ outcome, layout.allocate heap.settings heap.toRegion.grants request = .ok outcome →
      ∃ address after, action.run heap = .ok address after)
    (herror : ∀ reason, layout.allocate heap.settings heap.toRegion.grants request = .error reason →
      ∃ region, action.run heap = .error (.refused reason) { heap with toRegion := region } ∧
        region.memory = heap.memory) : heap.Exact request action := by
  have hkept : ∀ {reason : Refusal} {region : Region σ},
      action.run heap = .error (.refused reason) { heap with toRegion := region } →
      region.memory = heap.memory → ∀ failure after, action.run heap = .error failure after →
        after = { heap with provider := after.provider } := by
    intro reason region hrun hmemory failure after hafter
    rw [hrun] at hafter
    obtain ⟨-, rfl⟩ := EStateM.Result.error.inj hafter
    obtain ⟨provider, memory⟩ := region
    obtain rfl : memory = heap.memory := hmemory
    rfl
  rcases layout.allocate_cases heap.settings heap.toRegion.grants request with
    ⟨hzero, hallocate⟩ | ⟨hpos, hexhausted, hallocate⟩ | ⟨hpos, hexhausted, outcome, hallocate⟩
  · obtain ⟨region, hrun, hmemory⟩ := herror _ hallocate
    refine ⟨?_, ?_, ?_, hkept hrun hmemory⟩ <;> simp [hrun, hzero]
  · obtain ⟨region, hrun, hmemory⟩ := herror _ hallocate
    rw [← h.exhausted_iff] at hexhausted
    refine ⟨?_, ?_, ?_, hkept hrun hmemory⟩ <;> simp [hrun, hexhausted] <;> omega
  · obtain ⟨address, after, hrun⟩ := hok _ hallocate
    rw [← h.exhausted_iff] at hexhausted
    refine ⟨?_, ?_, ?_, fun failure stopped hfailed => ?_⟩
    · simp only [hrun, reduceCtorEq, exists_false, false_iff]
      omega
    · simp [hrun, hexhausted]
    · simp [hrun, hexhausted, hpos]
    · rw [hrun] at hfailed
      exact nomatch hfailed

variable [LawfulProvider σ]

/-- Allocating follows the rule. -/
theorem Sound.exact_allocate (h : heap.Sound layout) (hsettled : layout.Settled) (request : Nat) :
    heap.Exact request (allocate request) := by
  refine .of_allocate h (fun outcome hallocate => ?_) fun reason => h.run_allocate_of_error
  obtain ⟨after, -, hrun, -⟩ := h.run_allocate_of_ok hsettled hallocate
  exact ⟨_, after, hrun⟩

/-- Moving an allocated block follows the rule: freeing the old block cannot fail. -/
theorem Sound.exact_reallocate (h : heap.Sound layout) (hsettled : layout.Settled)
    (hblock : block ∈ layout.held) (request : Nat) :
    heap.Exact request (reallocate block.address request) := by
  refine .of_allocate h (fun outcome hallocate => ?_) fun reason hallocate => ?_
  · have hreallocate : layout.reallocate heap.settings heap.toRegion.grants block.address request =
        .ok (outcome.1, outcome.2.release block.address) := by
      rw [Layout.reallocate, hallocate]
      rfl
    obtain ⟨after, -, hrun, -⟩ := h.run_reallocate_of_ok hsettled hblock hreallocate
    exact ⟨_, after, hrun⟩
  · refine h.run_reallocate_of_error hblock ?_
    rw [Layout.reallocate, hallocate]
    rfl

end Heap

namespace Client

variable [Provider σ ε] [LawfulProvider σ]

/-- On every heap in use, requests for memory are refused for the two reasons that there are and in
no other case, whether a new block is asked for or a held one is to be moved, and a refusal changes
nothing. -/
theorem exact_of_reachable (hreach : Reachable settings region client) (request : Nat) :
    client.heap.Exact request (Heap.allocate request) ∧
      ∀ address ∈ client.live, client.heap.Exact request (Heap.reallocate address request) := by
  obtain ⟨layout, htracks⟩ := hreach.exists_tracks
  refine ⟨htracks.sound.exact_allocate htracks.settled request, fun address hlive => ?_⟩
  obtain ⟨block, hblock, rfl⟩ := htracks.exists_held hlive
  exact htracks.sound.exact_reallocate htracks.settled hblock request

/-- A heap that can grow no further has room to move a block of 24 bytes, but not for 40. -/
theorem exact_of_scarce_session : ∃ client : Client Bounded,
    Reachable ⟨64, 32⟩ (Bounded.region 200) client ∧ client.live = [80, 48] ∧
      (client.perform (.reallocate 48 24)).toOption.map Prod.fst = some (.block 16) ∧
      (client.perform (.reallocate 48 40)).toOption.map Prod.fst = some (.refused .outOfMemory) ∧
      client.heap.Exact 40 (Heap.allocate 40) ∧
      ∀ address ∈ client.live, client.heap.Exact 40 (Heap.reallocate address 40) := by
  have hseen : (session ⟨64, 32⟩ (Bounded.region 200)
      [.allocate 24, .allocate 24, .allocate 50, .release 16]).map (fun (_, _, client) =>
        (client.live, (client.perform (.reallocate 48 24)).toOption.map Prod.fst,
          (client.perform (.reallocate 48 40)).toOption.map Prod.fst)) =
      some ([80, 48], some (.block 16), some (.refused .outOfMemory)) := by
    decide +kernel
  obtain ⟨heap, turns, client, hcreate, hrun, hview⟩ := exists_of_session hseen
  simp only [Prod.mk.injEq] at hview
  obtain ⟨hlive, hmoved, hrefused⟩ := hview
  have hreach : Reachable ⟨64, 32⟩ (Bounded.region 200) client := ⟨heap, turns, hcreate, hrun⟩
  exact ⟨client, hreach, hlive, hmoved, hrefused, exact_of_reachable hreach 40⟩

end Client

end BoundaryTag
