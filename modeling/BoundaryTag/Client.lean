import BoundaryTag.Heap.Allocation

/-!
# Clients of a heap

A client calls the heap and keeps a record of the blocks that it holds, with the bytes that it
last saw or wrote there. A call is legal when it names a held block and writes inside of it.
`Client.Run` is a sequence of legal calls with their answers; between two of them, the provider may
be told to grant other requests than before. `Client.Reachable` describes every state that a run on
a heap that was just created leads to.
-/

namespace BoundaryTag

/-- A call of the heap. -/
inductive Call where
  | allocate (request : Nat)
  | release (address : Nat)
  | reallocate (address request : Nat)
  | write (address offset : Nat) (bytes : List UInt8)
  deriving DecidableEq, Repr

/-- The answer to a call that did not fault. -/
inductive Answer where
  /-- The address of the block that was allocated. -/
  | block (address : Nat)
  /-- The call was carried out. -/
  | done
  /-- The call was refused. -/
  | refused (reason : Refusal)
  deriving DecidableEq, Repr

/-- A block that a client holds, and the bytes that it expects there. -/
structure Holding where
  address : Nat
  contents : List UInt8
  deriving DecidableEq, Repr

namespace Holding

/-- The holding after bytes were written into the block. -/
def write (holding : Holding) (offset : Nat) (bytes : List UInt8) : Holding :=
  { holding with
    contents := holding.contents.take offset ++ bytes ++
      holding.contents.drop (offset + bytes.length) }

end Holding

/-- A heap, and the blocks of it that are held. -/
structure Client (σ : Type) where
  heap : Heap σ
  holdings : List Holding

variable {σ ε : Type}

/-- The payload of a block, empty if it cannot be read. -/
def Heap.contents (heap : Heap σ) (bp : Nat) : List UInt8 :=
  match heap.payload bp with
  | .ok bytes => bytes
  | .error _ => []

namespace Client

/-- The addresses of the held blocks. -/
def live (client : Client σ) : List Nat := client.holdings.map (·.address)

/-- The holdings without the block at this address. -/
def without (client : Client σ) (address : Nat) : List Holding :=
  client.holdings.filter (·.address ≠ address)

/-- The holdings after a call with this answer left this heap. -/
def update (client : Client σ) (heap : Heap σ) : Call → Answer → List Holding
  | .allocate _, .block address => ⟨address, heap.contents address⟩ :: client.holdings
  | .reallocate old _, .block address => ⟨address, heap.contents address⟩ :: client.without old
  | .release old, .done => client.without old
  | .write target offset bytes, .done =>
      client.holdings.map fun holding =>
        if holding.address = target then holding.write offset bytes else holding
  | _, _ => client.holdings

end Client

namespace Call

/-- Whether a client may make this call. -/
def Legal (client : Client σ) : Call → Prop
  | .allocate _ => True
  | .release address | .reallocate address _ => address ∈ client.live
  | .write address offset bytes =>
      ∃ holding ∈ client.holdings,
        holding.address = address ∧ offset + bytes.length ≤ holding.contents.length

/-- The action that a call asks for. -/
def action [Provider σ ε] : Call → HeapM σ Answer
  | .allocate request => do return .block (← Heap.allocate request)
  | .release address => do
      Heap.release address
      return .done
  | .reallocate address request => do return .block (← Heap.reallocate address request)
  | .write address offset bytes => do
      Heap.writePayload address offset bytes
      return .done

end Call

namespace Client

/-- Make a call. A refusal is an answer; a fault is none. -/
def perform [Provider σ ε] (client : Client σ) (call : Call) :
    Except Fault (Answer × Client σ) :=
  match call.action.run client.heap with
  | .ok answer heap => .ok (answer, ⟨heap, client.update heap call answer⟩)
  | .error (.refused reason) heap => .ok (.refused reason, ⟨heap, client.holdings⟩)
  | .error (.fault cause) _ => .error cause

/-- The client after its provider was given another state, which changes no byte. -/
def retune (client : Client σ) (provider : σ) : Client σ :=
  { client with heap.provider := provider }

end Client

/-- A call with its answer, and the requests for more memory that were granted at that time. -/
structure Turn where
  call : Call
  granted : Nat → Bool
  answer : Answer

namespace Client

variable [Provider σ ε]

/-- Legal calls lead from one client to another. -/
inductive Run : Client σ → List Turn → Client σ → Prop
  | done (client : Client σ) : Run client [] client
  | called {client next after : Client σ} {call : Call} {answer : Answer} {turns : List Turn}
      (hlegal : call.Legal client) (hperform : client.perform call = .ok (answer, next))
      (hrun : Run next turns after) :
      Run client (⟨call, client.heap.toRegion.grants, answer⟩ :: turns) after
  | retuned {client after : Client σ} {turns : List Turn} (provider : σ)
      (hrun : Run (client.retune provider) turns after) : Run client turns after

/-- The states that runs lead to, from a heap created with these settings on this region. -/
def Reachable (settings : Settings) (region : Region σ) (client : Client σ) : Prop :=
  ∃ heap turns, Heap.create settings region = .ok () heap ∧ Run ⟨heap, []⟩ turns client

end Client

end BoundaryTag
