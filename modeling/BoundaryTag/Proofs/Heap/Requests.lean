import BoundaryTag.Client.Script
import BoundaryTag.Proofs.Heap.Creation
import BoundaryTag.Proofs.Heap.Operations
import BoundaryTag.Proofs.Layout.Shift

/-!
# What an action asks the provider for

Only `Heap.grow` asks the provider for anything. All other actions are `HeapM.Quiet`, which is
closed under doing one after the other, so a call asks for what its one request asks for, and
`Client.requests_perform` says which one that is and that there is at most one.
`Heap.create_logged_cases` says the same of creating a heap, which has up to two requests.
-/

namespace BoundaryTag

variable {σ ε α β : Type}

namespace HeapM

/-- The heap that an action leaves, whether it succeeds or not. -/
def left (action : HeapM σ α) (heap : Heap σ) : Heap σ :=
  match action.run heap with
  | .ok _ after => after
  | .error _ after => after

/-- The action leaves the provider alone. -/
structure Quiet (action : HeapM σ α) : Prop where
  provider_eq : ∀ heap, (action.left heap).provider = heap.provider

variable {action : HeapM σ α} {next : α → HeapM σ β} {heap after : Heap σ} {value : α}
  {failure : Failure}

theorem left_of_ok (h : action.run heap = .ok value after) : action.left heap = after := by
  rw [left, h]

theorem left_of_error (h : action.run heap = .error failure after) : action.left heap = after := by
  rw [left, h]

theorem left_bind_of_ok (h : action.run heap = .ok value after) :
    (action >>= next).left heap = (next value).left after := by
  rw [left, run_bind_of_ok h, left]

theorem left_bind_of_error (h : action.run heap = .error failure after) :
    (action >>= next).left heap = after := by
  rw [left, run_bind_of_error h]

/-- What follows quietly does not change what was left of the provider. -/
theorem provider_left_bind (hnext : ∀ value, Quiet (next value)) (heap : Heap σ) :
    ((action >>= next).left heap).provider = (action.left heap).provider := by
  cases hrun : action.run heap with
  | ok value after => rw [left_bind_of_ok hrun, left_of_ok hrun, (hnext value).provider_eq]
  | error failure after => rw [left_bind_of_error hrun, left_of_error hrun]

namespace Quiet

theorem bind (haction : Quiet action) (hnext : ∀ value, Quiet (next value)) :
    Quiet (action >>= next) :=
  ⟨fun heap => (provider_left_bind hnext heap).trans (haction.provider_eq heap)⟩

theorem pure (value : α) : Quiet (pure value : HeapM σ α) := ⟨fun _ => rfl⟩

theorem get : Quiet (get : HeapM σ (Heap σ)) := ⟨fun _ => rfl⟩

theorem modify {change : Heap σ → Heap σ}
    (hchange : ∀ heap, (change heap).provider = heap.provider) :
    Quiet (modify change : HeapM σ Unit) := ⟨hchange⟩

theorem fault (cause : Fault) : Quiet (fault cause : HeapM σ α) := ⟨fun _ => rfl⟩

theorem ofExcept (result : Except Fault α) : Quiet (ofExcept result : HeapM σ α) :=
  ⟨fun _ => by cases result <;> rfl⟩

theorem observe (read : Heap σ → Except Fault α) : Quiet (observe read) where
  provider_eq heap := by
    cases hread : read heap with
    | ok value => rw [left_of_ok (run_observe_of_ok hread)]
    | error cause => rw [left_of_error (run_observe_of_error hread)]

theorem discard (haction : Quiet action) : Quiet (discard action) :=
  bind haction fun _ => pure ()

theorem ite {condition : Prop} [Decidable condition] {other : HeapM σ α} (haction : Quiet action)
    (hother : Quiet other) : Quiet (if condition then action else other) := by
  split
  · exact haction
  · exact hother

end Quiet

end HeapM

open HeapM

namespace Heap

/-! ## Quiet actions -/

theorem quiet_writeBytes (offset : Nat) (bytes : List UInt8) :
    Quiet (writeBytes offset bytes : HeapM σ Unit) where
  provider_eq heap := by
    by_cases hinside : offset + bytes.length ≤ heap.memory.size
    · rw [left_of_ok (run_writeBytes hinside)]
      rfl
    · have hrun : (writeBytes offset bytes).run heap = .error (.fault .outOfBounds) heap :=
        if_neg hinside
      rw [left_of_error hrun]

theorem quiet_setTags (bp size : Nat) (allocated : Bool) :
    Quiet (setTags bp size allocated : HeapM σ Unit) :=
  .bind (.ofExcept _) fun _ => .bind (.ofExcept _) fun _ => .bind (quiet_writeBytes ..) fun _ =>
    .bind (.ofExcept _) fun _ => quiet_writeBytes ..

theorem quiet_closeBehind (bp : Nat) : Quiet (closeBehind bp : HeapM σ Unit) :=
  .bind (.observe _) fun _ => .bind (.ofExcept _) fun _ => quiet_writeBytes ..

theorem quiet_enlist (bp : Nat) : Quiet (enlist bp : HeapM σ Unit) := by
  refine .bind .get fun heap => .bind (quiet_writeBytes ..) fun _ =>
    .bind (quiet_writeBytes ..) fun _ => ?_
  cases heap.free.head with
  | none => exact .modify fun _ => rfl
  | some old => exact .bind (quiet_writeBytes ..) fun _ => .modify fun _ => rfl

theorem quiet_delist (bp : Nat) : Quiet (delist bp : HeapM σ Unit) := by
  have hclear : Quiet (do
      setPredecessor bp none
      setSuccessor bp none
      let count ← observe fun heap => Address.sub heap.free.count 1
      modify ({ · with free.count := count }) : HeapM σ Unit) :=
    .bind (quiet_writeBytes ..) fun _ => .bind (quiet_writeBytes ..) fun _ =>
      .bind (.observe _) fun _ => .modify fun _ => rfl
  refine .bind (.observe _) fun before => .bind (.observe _) fun after => ?_
  cases after with
  | none =>
      have hhead : Quiet (do modify ({ · with free.head := none }); _ : HeapM σ Unit) :=
        .bind (.modify fun _ => rfl) fun _ => hclear
      cases before with
      | none => exact .bind .get fun _ => .ite (.bind (.fault _) fun _ => hhead) hhead
      | some before => exact .bind (quiet_writeBytes ..) fun _ => hclear
  | some after =>
      have hlink : ∀ before, Quiet (do setPredecessor after before; _ : HeapM σ Unit) :=
        fun before => .bind (quiet_writeBytes ..) fun _ => hclear
      have hhead : Quiet (do modify ({ · with free.head := some after }); _ : HeapM σ Unit) :=
        .bind (.modify fun _ => rfl) fun _ => hlink none
      cases before with
      | none => exact .bind .get fun _ => .ite (.bind (.fault _) fun _ => hhead) hhead
      | some before => exact .bind (quiet_writeBytes ..) fun _ => hlink (some before)

theorem quiet_settle (bp : Nat) : Quiet (settle bp : HeapM σ Nat) := by
  have hlist : ∀ merged : Nat, Quiet (do enlist merged; return merged : HeapM σ Nat) :=
    fun merged => .bind (quiet_enlist merged) fun _ => .pure merged
  refine .bind (.observe _) fun prev => .bind (.observe _) fun next =>
    .bind (.observe _) fun prevAllocated => .bind (.observe _) fun nextAllocated =>
      .bind (.observe _) fun size => ?_
  cases prevAllocated with
  | true =>
      cases nextAllocated with
      | true => exact .bind (.pure bp) hlist
      | false =>
          exact .bind (quiet_delist next) fun _ => .bind (.observe _) fun _ =>
            .bind (quiet_setTags ..) fun _ => .bind (.pure bp) hlist
  | false =>
      cases nextAllocated with
      | true =>
          exact .bind (quiet_delist prev) fun _ => .bind (.observe _) fun _ =>
            .bind (quiet_setTags ..) fun _ => .bind (.pure prev) hlist
      | false =>
          exact .bind (quiet_delist prev) fun _ => .bind (quiet_delist next) fun _ =>
            .bind (.observe _) fun _ => .bind (.observe _) fun _ =>
              .bind (quiet_setTags ..) fun _ => .bind (.pure prev) hlist

theorem quiet_occupy (bp size : Nat) : Quiet (occupy bp size : HeapM σ Unit) := by
  refine .bind (.observe _) fun whole => .bind (quiet_delist bp) fun _ =>
    .bind (.ofExcept _) fun left => .bind .get fun heap => .ite ?_ (quiet_setTags ..)
  exact .bind (quiet_setTags ..) fun _ => .bind (.observe _) fun rest =>
    .bind (quiet_setTags ..) fun _ => quiet_enlist rest

theorem quiet_release (address : Nat) : Quiet (release address : HeapM σ Unit) := by
  have hfree : Quiet (do
      let size ← observe (·.blockSize address)
      setTags address size false
      discard (settle address) : HeapM σ Unit) :=
    .bind (.observe _) fun _ => .bind (quiet_setTags ..) fun _ => .discard (quiet_settle address)
  have hallocated : Quiet (do
      if ¬ (← observe (·.isAllocated address)) then fault (.doubleFree address)
      let size ← observe (·.blockSize address)
      setTags address size false
      discard (settle address) : HeapM σ Unit) :=
    .bind (.observe _) fun _ => .ite (.bind (.fault _) fun _ => hfree) hfree
  exact .bind .get fun heap => .ite (.bind (.fault _) fun _ => hallocated) hallocated

theorem quiet_copyBytes (source target length : Nat) :
    Quiet (copyBytes source target length : HeapM σ Unit) where
  provider_eq heap := by
    by_cases hinside : source + length ≤ heap.memory.size ∧ target + length ≤ heap.memory.size
    · rw [left_of_ok (run_copyBytes hinside.1 hinside.2)]
      rfl
    · have hrun : (copyBytes source target length).run heap =
          .error (.fault .outOfBounds) heap := if_neg hinside
      rw [left_of_error hrun]

theorem quiet_writePayload (bp offset : Nat) (bytes : List UInt8) :
    Quiet (writePayload bp offset bytes : HeapM σ Unit) :=
  .bind (.observe _) fun _ => .ite (quiet_writeBytes ..) (.fault _)

/-! ## Requests -/

variable [Provider σ ε] {heap : Heap σ} {request count : Nat}

/-- Growing asks for its bytes, once it is clear that the heap has room for them, and for nothing
else. -/
theorem provider_left_expand (haligned : count % 8 = 0) (hroom : heap.stop + count ≤ heapLimit) :
    ((expand count).left heap).provider = ((grow count).left heap).provider := by
  have hstop : heap.stop ≤ heapLimit := (Nat.le_add_right _ _).trans hroom
  have hfits : ¬ count > heapLimit - heap.stop := by omega
  have hroundUp : roundUp? count alignment = some count := by
    refine roundUp?_of_aligned haligned ?_
    simp only [heapLimit] at hroom
    omega
  have hclose : ∀ bp, Quiet (do setTags bp count false; closeBehind bp; return bp : HeapM σ Nat) :=
    fun bp => .bind (quiet_setTags ..) fun _ => .bind (quiet_closeBehind bp) fun _ => .pure bp
  show ((appendFree count >>= settle).left heap).provider = _
  rw [provider_left_bind quiet_settle, appendFree, hroundUp]
  dsimp only
  rw [left_bind_of_ok (run_observe_of_ok (Address.sub_of_le hstop)), if_neg hfits]
  refine provider_left_bind (fun bp => ?_) heap
  exact .bind .get fun grown => .ite (.bind (.fault _) fun _ => hclose bp) (hclose bp)

/-- Allocating asks for what the heap needs for the request, and for nothing else. -/
theorem provider_left_allocate (hvalid : heap.settings.Valid)
    (hroom : ∀ count ∈ heap.growthFor request, heap.stop + count ≤ heapLimit) :
    ((allocate request).left heap).provider =
      match heap.growthFor request with
      | some count => ((grow count).left heap).provider
      | none => heap.provider := by
  have hplace : ∀ size bp, Quiet (do
      if (← observe (·.blockSize bp)) < size then fault .blockTooSmall
      occupy bp size
      return bp : HeapM σ Nat) := fun size bp =>
    .bind (.observe _) fun _ => .ite
      (.bind (.fault _) fun _ => .bind (quiet_occupy bp size) fun _ => .pure bp)
      (.bind (quiet_occupy bp size) fun _ => .pure bp)
  unfold growthFor at hroom ⊢
  rw [allocate]
  by_cases hzero : request = 0
  · rw [if_pos hzero, if_pos hzero]
    rfl
  · rw [if_neg hzero] at hroom ⊢
    rw [if_neg hzero]
    dsimp only
    rw [left_bind_of_ok (run_get heap)]
    cases hsize : blockSizeFor? request heap.settings.minBlock with
    | none => rfl
    | some size =>
        rw [hsize] at hroom
        dsimp only at hroom ⊢
        cases hfit : heap.firstFit size with
        | error cause =>
            rw [left_bind_of_error (run_observe_of_error hfit)]
        | ok found =>
            rw [left_bind_of_ok (run_observe_of_ok hfit)]
            cases found with
            | some bp => exact (hplace size bp).provider_eq heap
            | none =>
                rw [hfit] at hroom
                obtain ⟨-, -, haligned, hlargest⟩ :=
                  blockSizeFor?_spec hvalid.minBlock_aligned hsize
                have hexpand :=
                  provider_left_expand (hvalid.growth haligned hlargest).1 (hroom _ rfl)
                exact (provider_left_bind (hplace size) heap).trans hexpand

/-- Moving a block asks for what allocating the new one asks for. -/
theorem provider_left_reallocate {address : Nat}
    (hallocated : heap.isAllocated address = .ok true) :
    ((reallocate address request).left heap).provider =
      ((allocate request).left heap).provider := by
  rw [reallocate, left_bind_of_ok (run_observe_of_ok hallocated), if_neg (not_not.2 rfl)]
  refine provider_left_bind (fun target => ?_) heap
  exact .bind (.observe _) fun held => .bind (quiet_copyBytes ..) fun _ =>
    .bind (quiet_release address) fun _ => .pure target

/-- A call asks for what the heap needs for the bytes that it asks for, and for nothing else. -/
theorem provider_left_action {call : Call} (hvalid : heap.settings.Valid)
    (hallocated : ∀ address request, call = .reallocate address request →
      heap.isAllocated address = .ok true)
    (hroom : ∀ count ∈ heap.growthFor call.request, heap.stop + count ≤ heapLimit) :
    (call.action.left heap).provider =
      match heap.growthFor call.request with
      | some count => ((grow count).left heap).provider
      | none => heap.provider := by
  cases call with
  | allocate request =>
      exact (provider_left_bind (fun _ => .pure _) heap).trans (provider_left_allocate hvalid hroom)
  | release address => exact (quiet_release address).bind (fun _ => .pure _) |>.provider_eq heap
  | reallocate address request =>
      refine (provider_left_bind (fun _ => .pure _) heap).trans ?_
      rw [provider_left_reallocate (hallocated address request rfl)]
      exact provider_left_allocate hvalid hroom
  | write address offset bytes =>
      exact (quiet_writePayload address offset bytes).bind (fun _ => .pure _) |>.provider_eq heap

/-- Laying out a heap asks for the bytes of its prologue and its epilogue. -/
theorem provider_left_format (heap : Heap σ) :
    (format.left heap).provider = ((grow (openingSize heap.memory)).left heap).provider := by
  rw [format, left_bind_of_ok (run_get heap)]
  refine provider_left_bind (fun base => ?_) heap
  exact .bind (.modify fun _ => rfl) fun _ => .bind (quiet_writeBytes ..) fun _ =>
    .bind (quiet_setTags ..) fun _ => quiet_closeBehind _

end Heap

/-! ## The record of a watched provider -/

section Logged

variable [Provider σ ε] {settings : Settings} {region : Region σ}

namespace Heap

/-- Each request is recorded with its outcome. -/
theorem requests_left_grow (heap : Heap (Logged σ)) (count : Nat) :
    ((grow count).left heap).provider.requests =
      heap.provider.requests ++ [⟨count, heap.toRegion.grants count⟩] := by
  have hwatched : heap.toRegion = heap.toRegion.unlogged.logged heap.provider.requests := rfl
  rw [hwatched, Region.grants_logged, Region.grants]
  cases hgrow : Provider.grow count heap.toRegion.unlogged with
  | ok base grown =>
      have hrun : (grow count).run heap = .ok base { heap with
          toRegion := grown.logged (heap.provider.requests ++ [⟨count, true⟩]) } := by
        show grow count heap = _
        rw [grow, hwatched, Region.grow_logged_of_ok hgrow]
        rfl
      rw [left_of_ok hrun]
      rfl
  | error reason grown =>
      have hrun : (grow count).run heap = .error (.refused .outOfMemory) { heap with
          toRegion := grown.logged (heap.provider.requests ++ [⟨count, false⟩]) } := by
        show grow count heap = _
        rw [grow, hwatched, Region.grow_logged_of_error hgrow]
        rfl
      rw [left_of_error hrun]
      rfl

/-- With valid settings, a heap is laid out and given its first block. -/
theorem create_eq_of_valid (hvalid : settings.Valid) (region : Region σ) :
    create settings region =
      (format >>= fun _ => discard (expand settings.chunkSize)).run (raw settings region) := by
  rw [create, setUp, run_bind_of_ok (run_get _)]
  dsimp only [raw]
  rw [Settings.check_eq_ok_iff.2 hvalid]

/-- Laying out a heap on a region asks for the bytes of the prologue and the epilogue. -/
theorem requests_left_format (settings : Settings) (region : Region σ) :
    (format.left (raw settings (region.logged []))).provider.requests =
      [⟨openingSize region.memory, region.grants (openingSize region.memory)⟩] := by
  rw [provider_left_format, requests_left_grow]
  exact congrArg (fun granted => [Request.mk (openingSize region.memory) granted])
    (region.grants_logged [] _)

variable [LawfulProvider σ] {formatted : Heap (Logged σ)}

/-- A heap that was laid out asks for its first block, and gets it if that is granted. -/
theorem LaidOut.requests_first_block {region : Region (Logged σ)}
    (h : formatted.LaidOut settings region) (hvalid : settings.Valid)
    (hroom : formatted.stop + settings.chunkSize ≤ heapLimit) :
    (∃ after, (discard (expand settings.chunkSize)).run formatted =
        .error (.refused .outOfMemory) after ∧
      after.provider.requests = formatted.provider.requests ++ [⟨settings.chunkSize, false⟩]) ∨
    ∃ heap, (discard (expand settings.chunkSize)).run formatted = .ok () heap ∧
      heap.provider.requests = formatted.provider.requests ++ [⟨settings.chunkSize, true⟩] := by
  have hsound := h.sound hvalid (by omega)
  have hstop : formatted.start + overhead = formatted.stop := hsound.stop_eq
  have hlog : ((expand settings.chunkSize).left formatted).provider.requests =
      formatted.provider.requests ++
        [⟨settings.chunkSize, formatted.toRegion.grants settings.chunkSize⟩] := by
    rw [provider_left_expand hvalid.chunkSize_aligned hroom, requests_left_grow]
  cases hgrants : formatted.toRegion.grants settings.chunkSize with
  | false =>
      obtain ⟨other, hexpand, -⟩ := hsound.run_expand_refused hvalid.chunkSize_aligned
        hvalid.chunkSize_le fun hgranted => Bool.false_ne_true (hgrants.symm.trans hgranted.2)
      rw [left_of_error hexpand, hgrants] at hlog
      exact .inl ⟨_, run_discard_of_error hexpand, hlog⟩
  | true =>
      have hsettled : Layout.Settled ⟨[], [], formatted.start + overhead⟩ :=
        ⟨List.isChain_nil, fun bp hbp => absurd hbp List.not_mem_nil⟩
      obtain ⟨heap, hexpand, -⟩ := hsound.run_expand hsettled hvalid.chunkSize_aligned
        (h.settings_eq ▸ hvalid.minBlock_le) (by dsimp only; omega) hgrants
      rw [left_of_ok hexpand, hgrants] at hlog
      exact .inr ⟨heap, run_discard_of_ok hexpand, hlog⟩

/-- How creating a heap ends, and what it has asked for. -/
theorem create_logged_cases (hroom : region.Roomy settings) :
    (∃ reason, settings.check = .error reason ∧
      ∃ after, create settings (region.logged []) = .error (.refused reason) after ∧
        after.provider.requests = []) ∨
    settings.check = .ok () ∧
      ((∃ after, create settings (region.logged []) = .error (.refused .outOfMemory) after ∧
        after.provider.requests = [⟨openingSize region.memory, false⟩]) ∨
      (∃ after, create settings (region.logged []) = .error (.refused .outOfMemory) after ∧
        after.provider.requests =
          [⟨openingSize region.memory, true⟩, ⟨settings.chunkSize, false⟩]) ∨
      ∃ heap, create settings (region.logged []) = .ok () heap ∧
        heap.provider.requests =
          [⟨openingSize region.memory, true⟩, ⟨settings.chunkSize, true⟩]) := by
  cases hcheck : settings.check with
  | error reason =>
      refine .inl ⟨reason, rfl, raw settings (region.logged []), ?_, rfl⟩
      rw [create, setUp, run_bind_of_ok (run_get _)]
      dsimp only [raw]
      rw [hcheck]
      rfl
  | ok _ =>
      have hvalid := Settings.check_eq_ok_iff.1 hcheck
      have hopening := requests_left_format settings region
      refine .inr ⟨rfl, ?_⟩
      rw [create_eq_of_valid hvalid]
      cases hgrants : region.grants (openingSize region.memory) with
      | false =>
          obtain ⟨after, hformat⟩ := run_format_refused
            ((region.grants_logged [] (openingSize region.memory)).trans hgrants)
          rw [left_of_error hformat, hgrants] at hopening
          exact .inl ⟨after, run_bind_of_error hformat, hopening⟩
      | true =>
          have hlimit := hroom hvalid hgrants
          have hstop : (nextPrologue region.memory).stop =
              region.memory.size + openingSize region.memory := by
            simp only [nextPrologue, Block.stop, openingSize, overhead, wordSize]
            omega
          have hspace : (nextPrologue region.memory).stop < addressSpace := by
            simp only [heapLimit, addressSpace] at *
            omega
          obtain ⟨formatted, hformat, hlaidOut⟩ :
              ∃ formatted, format.run (raw settings (region.logged [])) = .ok () formatted ∧
                formatted.LaidOut settings (region.logged []) :=
            run_format ((region.grants_logged [] (openingSize region.memory)).trans hgrants) hspace
          have hend : formatted.stop = (nextPrologue region.memory).stop := hlaidOut.size_eq
          have hfirst := hlaidOut.requests_first_block hvalid (by omega)
          rw [left_of_ok hformat, hgrants] at hopening
          rw [hopening] at hfirst
          rw [run_bind_of_ok hformat]
          exact .inr hfirst

end Heap

end Logged

namespace Client

variable [Provider σ ε] {client next : Client (Logged σ)} {call : Call} {answer : Answer}

/-- A call that is answered asks for what the heap needs, and the outcome is recorded. -/
theorem requests_perform (hvalid : client.heap.settings.Valid)
    (hallocated : ∀ address request, call = .reallocate address request →
      client.heap.isAllocated address = .ok true)
    (hroom : ∀ count ∈ client.heap.growthFor call.request, client.heap.stop + count ≤ heapLimit)
    (hperform : client.perform call = .ok (answer, next)) :
    next.heap.provider.requests = client.heap.provider.requests ++
      (client.heap.growthFor call.request).toList.map fun count =>
        ⟨count, client.heap.toRegion.grants count⟩ := by
  have hleft : call.action.left client.heap = next.heap := by
    rw [perform] at hperform
    split at hperform
    next found heap hrun =>
      obtain ⟨-, rfl⟩ := Prod.mk.inj (Except.ok.inj hperform)
      exact left_of_ok hrun
    next reason heap hrun =>
      obtain ⟨-, rfl⟩ := Prod.mk.inj (Except.ok.inj hperform)
      exact left_of_error hrun
    next => exact nomatch hperform
  rw [← hleft, Heap.provider_left_action hvalid hallocated hroom]
  cases client.heap.growthFor call.request with
  | none => exact (List.append_nil _).symm
  | some count => exact Heap.requests_left_grow client.heap count

end Client

end BoundaryTag
