import BoundaryTag.Audit.Report
import BoundaryTag.Client.Session
import BoundaryTag.Heap.Blocks
import BoundaryTag.Provider.Logged

/-!
# Scripts

A script says what a client does without saying where: it names a block by the turn that returned
it, and leaves open what is written. `Client.Enacts` is a client that creates a heap over a watched
provider and follows a script there, with what is seen of it: the answer to each call, and an
`Outlook` on the heap afterwards, in which addresses are counted from where the heap started. A
script that is to be followed with certain calls can be run, and `Client.enacts_of_enact` says that
what is computed is seen of a client that enacts it.
-/

namespace BoundaryTag

variable {σ ε : Type}

/-! ## What is seen -/

/-- What can be seen of a heap, with its addresses counted from an origin. -/
structure Outlook where
  /-- The place of each block, its size, and its flag. -/
  blocks : List (Int × Nat × Bool)
  /-- The places of the listed blocks, in the order of the list. -/
  freeBlocks : List Int
  tally : Tally
  /-- The statistics, with the bytes below the origin left out. -/
  usage : Usage
  /-- The requests for more memory, but for the first one, which laid the heap out. -/
  requests : List Request
  deriving DecidableEq

/-- What can be seen of a call: the place of the block that it returned or its refusal, and the heap
afterwards. -/
structure Sight where
  answer : Except Refusal (Option Int)
  outlook : Outlook

/-- What can be seen of an answer. -/
def Answer.seenFrom (origin : Nat) : Answer → Except Refusal (Option Int)
  | .block address => .ok (some ((address : Int) - origin))
  | .done => .ok none
  | .refused reason => .error reason

namespace Heap

/-- The blocks that the headers lead through, with their places. -/
def outline (heap : Heap σ) (origin : Nat) : Except Fault (List (Int × Nat × Bool)) := do
  (← heap.blocks).mapM fun bp => do
    return ((bp : Int) - origin, ← heap.blockSize bp, ← heap.isAllocated bp)

/-- What can be seen of a heap whose provider is watched. -/
def outlook (heap : Heap (Logged σ)) (origin : Nat) : Except Fault Outlook := do
  let blocks ← heap.outline origin
  let order ← heap.freeBlocks
  let (tally, usage) ← heap.summary
  return {
    blocks
    freeBlocks := order.map fun (bp : Nat) => (bp : Int) - origin
    tally
    usage := { usage with heapSize := usage.heapSize - origin }
    requests := heap.provider.requests.tail }

/-- What can be seen of a call that had this answer and left this heap. -/
def sight (heap : Heap (Logged σ)) (origin : Nat) (answer : Answer) : Except Fault Sight := do
  return ⟨answer.seenFrom origin, ← heap.outlook origin⟩

/-- The bytes that are asked for when a heap is laid out behind a memory. -/
def openingSize (memory : Memory) : Nat := paddingAfter memory.size + 3 * wordSize

/-- The bytes that a request makes a heap ask for, if no listed block is large enough. -/
def growthFor (heap : Heap σ) (request : Nat) : Option Nat :=
  if request = 0 then none
  else match blockSizeFor? request heap.settings.minBlock with
    | none => none
    | some size =>
        match heap.firstFit size with
        | .ok none => some (max size heap.settings.chunkSize)
        | _ => none

end Heap

/-- The bytes that a call asks for, none if it asks for nothing. -/
def Call.request : Call → Nat
  | .allocate request | .reallocate _ request => request
  | .release _ | .write .. => 0

/-! ## Scripts -/

/-- A call in which a block is named by the turn that returned it, and the bytes to be written are
left open. -/
inductive Instruction where
  | allocate (request : Nat)
  | release (turn : Nat)
  | reallocate (turn request : Nat)
  | write (turn : Nat)
  deriving DecidableEq, Repr

/-- Whether a call is what an instruction asks for, given the answers so far. -/
def Instruction.Allows (past : List Answer) : Instruction → Call → Prop
  | .allocate request, .allocate asked => asked = request
  | .release turn, .release address => past[turn]? = some (.block address)
  | .reallocate turn request, .reallocate address asked =>
      past[turn]? = some (.block address) ∧ asked = request
  | .write turn, .write address _ _ => past[turn]? = some (.block address)
  | _, _ => False

instance (past : List Answer) :
    (instruction : Instruction) → (call : Call) → Decidable (instruction.Allows past call)
  | .allocate request, .allocate asked => inferInstanceAs (Decidable (asked = request))
  | .release turn, .release address =>
      inferInstanceAs (Decidable (past[turn]? = some (.block address)))
  | .reallocate turn request, .reallocate address asked =>
      inferInstanceAs (Decidable (past[turn]? = some (.block address) ∧ asked = request))
  | .write turn, .write address _ _ =>
      inferInstanceAs (Decidable (past[turn]? = some (.block address)))
  | .allocate _, .release _ | .allocate _, .reallocate .. | .allocate _, .write .. => .isFalse id
  | .release _, .allocate _ | .release _, .reallocate .. | .release _, .write .. => .isFalse id
  | .reallocate .., .allocate _ | .reallocate .., .release _ | .reallocate .., .write .. =>
      .isFalse id
  | .write _, .allocate _ | .write _, .release _ | .write _, .reallocate .. => .isFalse id

/-- A heap that is created on the region does not meet its limit. -/
def Region.Roomy [Provider σ ε] (settings : Settings) (region : Region σ) : Prop :=
  settings.Valid → region.grants (Heap.openingSize region.memory) = true →
    region.memory.size + Heap.openingSize region.memory + settings.chunkSize ≤ heapLimit

namespace Client

variable [Provider σ ε]

/-- A client follows a script by legal calls, none of which meets the limit of the heap. In front
stand the answers before, and behind the script what is seen and, at the end, the requests that the
provider has had. A fault is the end of it. Between two calls, the provider may be told to grant
other requests than before. -/
inductive Follows (origin : Nat) :
    List Answer → Client (Logged σ) → List Instruction → List (Except Fault Sight) →
      List Request → Prop
  | done (past : List Answer) (client : Client (Logged σ)) :
      Follows origin past client [] [] client.heap.provider.requests
  | called {past : List Answer} {client next : Client (Logged σ)} {instruction : Instruction}
      {script : List Instruction} {call : Call} {answer : Answer}
      {sights : List (Except Fault Sight)} {requests : List Request}
      (hallows : instruction.Allows past call) (hlegal : call.Legal client)
      (hroom : ∀ count ∈ client.heap.growthFor call.request,
        client.heap.stop + count ≤ heapLimit)
      (hperform : client.perform call = .ok (answer, next))
      (hrest : Follows origin (past ++ [answer]) next script sights requests) :
      Follows origin past client (instruction :: script) (next.heap.sight origin answer :: sights)
        requests
  | faulted {past : List Answer} {client : Client (Logged σ)} {instruction : Instruction}
      {script : List Instruction} {call : Call} {cause : Fault}
      (hallows : instruction.Allows past call) (hlegal : call.Legal client)
      (hroom : ∀ count ∈ client.heap.growthFor call.request,
        client.heap.stop + count ≤ heapLimit)
      (hperform : client.perform call = .error cause) :
      Follows origin past client (instruction :: script) [.error cause]
        client.heap.provider.requests
  | retuned {past : List Answer} {client : Client (Logged σ)} {script : List Instruction}
      {sights : List (Except Fault Sight)} {requests : List Request} (inner : σ)
      (hrest : Follows origin past (client.retune ⟨inner, client.heap.provider.requests⟩) script
        sights requests) : Follows origin past client script sights requests

/-- A client creates a heap over a watched provider, without meeting the limit of the heap, and
follows a script there. -/
inductive Enacts (settings : Settings) (region : Region σ) (script : List Instruction) :
    Except Failure (List (Except Fault Sight)) → List Request → Prop
  | stopped {failure : Failure} {heap : Heap (Logged σ)} (hroom : region.Roomy settings)
      (hcreate : Heap.create settings (region.logged []) = .error failure heap) :
      Enacts settings region script (.error failure) heap.provider.requests
  | created {heap : Heap (Logged σ)} {sights : List (Except Fault Sight)} {requests : List Request}
      (hroom : region.Roomy settings)
      (hcreate : Heap.create settings (region.logged []) = .ok () heap)
      (hfollows : Follows heap.start [] ⟨heap, []⟩ script sights requests) :
      Enacts settings region script (.ok (heap.sight heap.start .done :: sights)) requests

/-! ## Running a script -/

/-- Follow a script with these calls. There is no outcome when one of them is not what the script
asks for, is not legal, meets the limit of the heap, or faults. -/
def follow (origin : Nat) (past : List Answer) (client : Client (Logged σ)) :
    List (Instruction × Call) → Option (List (Except Fault Sight) × List Request)
  | [] => some ([], client.heap.provider.requests)
  | (instruction, call) :: turns =>
      if instruction.Allows past call ∧ call.Legal client ∧
          ∀ count ∈ client.heap.growthFor call.request, client.heap.stop + count ≤ heapLimit then
        do
          let (answer, next) ← (client.perform call).toOption
          let (sights, requests) ← next.follow origin (past ++ [answer]) turns
          return (next.heap.sight origin answer :: sights, requests)
      else none

/-- Create a heap over a watched provider and follow a script there with these calls. -/
def enact (settings : Settings) (region : Region σ) (turns : List (Instruction × Call)) :
    Option (List (Except Fault Sight) × List Request) :=
  match Heap.create settings (region.logged []) with
  | .ok () heap => do
      let (sights, requests) ← follow heap.start [] ⟨heap, []⟩ turns
      return (heap.sight heap.start .done :: sights, requests)
  | .error _ _ => none

variable {settings : Settings} {region : Region σ} {origin : Nat} {past : List Answer}
  {client : Client (Logged σ)} {turns : List (Instruction × Call)}
  {sights : List (Except Fault Sight)} {requests : List Request}

theorem follows_of_follow (h : client.follow origin past turns = some (sights, requests)) :
    Follows origin past client (turns.map Prod.fst) sights requests := by
  induction turns generalizing past client sights with
  | nil =>
      obtain ⟨rfl, rfl⟩ := Prod.mk.inj (Option.some.inj h)
      exact .done past client
  | cons turn turns ih =>
      obtain ⟨instruction, call⟩ := turn
      rw [follow] at h
      split at h
      next hallowed =>
        obtain ⟨hallows, hlegal, hroom⟩ := hallowed
        simp only [Option.bind_eq_bind, Option.bind_eq_some_iff] at h
        obtain ⟨⟨answer, next⟩, houtcome, ⟨rest, log⟩, hrest, h⟩ := h
        obtain ⟨rfl, rfl⟩ := Prod.mk.inj (Option.some.inj h)
        cases hperform : client.perform call with
        | error cause =>
            rw [hperform] at houtcome
            cases houtcome
        | ok outcome =>
            rw [hperform] at houtcome
            obtain rfl : outcome = (answer, next) := Option.some.inj houtcome
            exact .called hallows hlegal hroom hperform (ih hrest)
      next => cases h

/-- What is computed from a script is seen of a client that enacts it. -/
theorem enacts_of_enact (hroom : region.Roomy settings)
    (h : enact settings region turns = some (sights, requests)) :
    Enacts settings region (turns.map Prod.fst) (.ok sights) requests := by
  rw [enact] at h
  cases hcreate : Heap.create settings (region.logged []) with
  | error failure stopped =>
      rw [hcreate] at h
      cases h
  | ok _ heap =>
      rw [hcreate] at h
      simp only [Option.bind_eq_bind, Option.bind_eq_some_iff] at h
      obtain ⟨⟨rest, log⟩, hfollow, h⟩ := h
      obtain ⟨rfl, rfl⟩ := Prod.mk.inj (Option.some.inj h)
      exact .created hroom hcreate (follows_of_follow hfollow)

end Client

end BoundaryTag
