import BoundaryTag.Provider.Bounded
import BoundaryTag.Provider.Reserved

/-!
# Buffers handed out from the front

A region makes up its blank bytes as it grows. A program has to have them before: it makes all the
bytes in one piece, and moves a mark through them up to which they have been handed out. A `Buffer`
is such a piece with its mark, and `Bounded.Store` and `Reserved.Store` are the two providers as
they are kept in this way. To reach beyond the bytes of the buffer, and to count out of the 64-bit
range, are faults.

A `Grower` is what a program can do with a provider and the memory that it has handed out, however
the two are kept: stores are growers, and so are regions. A `Grower.Step` is one such step.
-/

namespace BoundaryTag

/-- The bytes with some of them, from an offset on, replaced by these values. -/
def overwritten (bytes : List UInt8) (offset : Nat) (values : List UInt8) : List UInt8 :=
  bytes.take offset ++ values ++ bytes.drop (offset + values.length)

/-- Bytes that are there from the start, of which the first `used` have been handed out. -/
structure Buffer where
  bytes : List UInt8
  used : Nat
  deriving DecidableEq, Repr

namespace Buffer

/-- A buffer of this many zero bytes, none of them handed out. -/
def zeros (length : Nat) : Buffer := ⟨List.replicate length 0, 0⟩

/-- The bytes handed out so far. -/
def view (buffer : Buffer) : Except Fault (List UInt8) :=
  if buffer.used ≤ buffer.bytes.length then .ok (buffer.bytes.take buffer.used)
  else .error .outOfBounds

/-- Change consecutive bytes, all of them handed out. -/
def write (offset : Nat) (values : List UInt8) (buffer : Buffer) : Except Fault Buffer := do
  let bytes ← buffer.view
  if offset + values.length ≤ bytes.length then
    return { buffer with bytes := overwritten buffer.bytes offset values }
  else throw .outOfBounds

/-- Hand out this many more bytes. -/
def advance (count : Nat) (buffer : Buffer) : Except Fault Buffer := do
  return { buffer with used := ← Address.add buffer.used count }

end Buffer

/-! ## What a program can do with a provider -/

/-- Something that takes commands of this kind. -/
class Commanded (τ : Type) (κ : outParam Type) where
  /-- Give a command. -/
  command : κ → τ → τ

/-- A provider and the memory that it has handed out, as a program meets them. Beside the requests
it takes the commands of its kind. -/
class Grower (τ : Type) (κ ε : outParam Type) extends Commanded τ κ where
  /-- Ask for this many more bytes; the answer is the address of the first of them. -/
  grow : Nat → τ → Except Fault (EStateM.Result ε τ Nat)
  /-- The bytes handed out so far. -/
  view : τ → Except Fault (List UInt8)
  /-- Change consecutive bytes, all of them handed out. -/
  write : Nat → List UInt8 → τ → Except Fault τ

namespace Grower

/-- A step of a program that uses a provider. -/
inductive Step (κ : Type) where
  /-- Ask for more bytes. -/
  | grow (count : Nat)
  /-- Change bytes that have been handed out. -/
  | write (offset : Nat) (values : List UInt8)
  /-- Give a command. -/
  | command (given : κ)
  deriving DecidableEq, Repr

variable {τ κ ε : Type} [Grower τ κ ε]

/-- Make a step. A request that is refused is an answer as well. -/
def perform (grower : τ) : Step κ → Except Fault τ
  | .grow count => do
      match ← grow count grower with
      | .ok _ after | .error _ after => return after
  | .write offset values => write offset values grower
  | .command given => .ok (Commanded.command given grower)

/-- Make these steps one after the other. -/
def performAll (grower : τ) (steps : List (Step κ)) : Except Fault τ := steps.foldlM perform grower

end Grower

/-! ## Regions as growers -/

/-- The commands that a bounded buffer takes. -/
inductive Bounded.Command where
  /-- Hand out no more than `limit` bytes in total. -/
  | limitTo (limit : Nat)
  /-- Hand out nothing more. -/
  | stopGrowing
  deriving DecidableEq, Repr

instance : Commanded (Region Bounded) Bounded.Command where
  command
    | .limitTo limit => Bounded.limitTo limit
    | .stopGrowing => Bounded.stopGrowing

instance : Commanded (Region Reserved) Empty where
  command := nofun

namespace Region

variable {σ κ ε : Type}

/-- All bytes handed out so far. -/
def view (region : Region σ) : List UInt8 := region.memory.slice 0 region.memory.size

/-- Change consecutive bytes, all of them handed out. -/
def write (offset : Nat) (values : List UInt8) (region : Region σ) : Except Fault (Region σ) :=
  if offset + values.length ≤ region.memory.size then
    .ok { region with memory := region.memory.write offset values }
  else .error .outOfBounds

instance [Provider σ ε] [Commanded (Region σ) κ] : Grower (Region σ) κ ε where
  grow count region := .ok (Provider.grow count region)
  view region := .ok region.view
  write := write

end Region

/-! ## Providers that keep a buffer -/

/-- A bounded buffer, of which at most `limit` bytes may be handed out. -/
structure Bounded.Store where
  limit : Nat
  buffer : Buffer
  deriving DecidableEq, Repr

/-- A buffer of this capacity, of which nothing has been handed out. -/
def Bounded.Store.fresh (capacity : Nat) : Bounded.Store := ⟨capacity, .zeros capacity⟩

instance : Grower Bounded.Store Bounded.Command Unit where
  command
    | .limitTo limit, store => { store with limit := min limit store.buffer.bytes.length }
    | .stopGrowing, store => { store with limit := store.buffer.used }
  grow count store := do
    if count > store.limit - store.buffer.used then return .error () store
    return .ok store.buffer.used { store with buffer := ← store.buffer.advance count }
  view store := store.buffer.view
  write offset values store := do
    return { store with buffer := ← store.buffer.write offset values }

/-- A reserved range of `length` bytes, which arrives from the system as a buffer. -/
structure Reserved.Store where
  length : Nat
  buffer : Buffer
  deriving DecidableEq, Repr

/-- A range of this length, of zero bytes as the system maps them. -/
def Reserved.Store.fresh (length : Nat) : Reserved.Store := ⟨length, .zeros length⟩

instance : Grower Reserved.Store Empty Reserved.NoRoom where
  command := nofun
  grow count store := do
    let available ← Address.sub store.length store.buffer.used
    if count > available then return .error ⟨count, available⟩ store
    return .ok store.buffer.used { store with buffer := ← store.buffer.advance count }
  view store := store.buffer.view
  write offset values store := do
    return { store with buffer := ← store.buffer.write offset values }

end BoundaryTag
