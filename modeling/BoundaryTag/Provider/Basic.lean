import BoundaryTag.Memory

/-!
# Memory providers

A heap gets its bytes from a provider, which can append a run of bytes to the memory it has
handed out so far, or refuse. A provider and the memory it has handed out form a `Region`.
`LawfulProvider` is the contract that the heap relies on: a request for `count` bytes either
appends exactly `count` bytes of any content and returns the old length, or leaves the memory
alone.
-/

namespace BoundaryTag

/-- A provider together with all bytes that it has handed out. -/
structure Region (σ : Type) where
  provider : σ
  memory : Memory

/-- A source of memory with state `σ`, which refuses with a value of `ε`. -/
class Provider (σ : Type) (ε : outParam Type) where
  /-- Ask for this many more bytes; the answer is the address of the first of them. -/
  grow : Nat → EStateM ε (Region σ) Nat

/-- The second memory is the first one with `count` bytes appended. -/
structure Memory.Appended (before after : Memory) (count : Nat) : Prop where
  size_eq : after.size = before.size + count
  byte_eq : ∀ address < before.size, after.byte address = before.byte address

/-- Whether a request for this many more bytes would be granted now. -/
def Region.grants {σ ε : Type} [Provider σ ε] (region : Region σ) (count : Nat) : Bool :=
  match Provider.grow count region with
  | .ok .. => true
  | .error .. => false

/-- A provider that appends exactly what it is asked for, or refuses and changes no byte. -/
class LawfulProvider (σ : Type) {ε : outParam Type} [Provider σ ε] : Prop where
  appended : ∀ {count base : Nat} {before after : Region σ},
    Provider.grow count before = .ok base after →
      base = before.memory.size ∧ before.memory.Appended after.memory count
  kept : ∀ {count : Nat} {reason : ε} {before after : Region σ},
    Provider.grow count before = .error reason after → after.memory = before.memory

/-- Appending blank bytes appends. -/
theorem Memory.appended_extend (memory : Memory) (count : Nat) :
    memory.Appended (memory.extend count) count :=
  ⟨rfl, fun _ _ => rfl⟩

/-- Hand out this many blank bytes at the end of the memory. -/
def Region.append (region : Region σ) (count : Nat) : Region σ :=
  { region with memory := region.memory.extend count }

end BoundaryTag
