import BoundaryTag.Provider.Basic

/-!
# A reserved range of pages

A provider that reserves a whole number of pages of zero bytes once, and then hands them out
from the front of the range. How large a page is and whether a range is mapped is up to the system.
-/

namespace BoundaryTag

/-- A range of `length` bytes, which are handed out from the front. -/
structure Reserved where
  length : Nat

namespace Reserved

/-- What the system answers to a process that asks for memory. -/
structure System where
  /-- The bytes of a page. -/
  pageSize : Nat
  /-- The number of the error "not enough memory". -/
  noMemory : Nat
  /-- The address at which a range of this length is mapped, or the number of an error. -/
  map : Nat → Except Nat Nat
  pageSize_pow : pageSize.isPowerOfTwo

/-- The addresses that a process can map. -/
def mappable : Nat := 0x8000_0000_0000

/-- What was asked for and what was left, when a request does not fit. -/
structure NoRoom where
  requested : Nat
  available : Nat
  deriving DecidableEq, Repr

/-- Reserve room for at least `capacity` bytes, at least one page. There is an error number instead
if that leaves the address space or the system does not map it; a range at address zero is none. -/
def region? (system : System) (capacity : Nat) : Except Nat (Region Reserved) := do
  let some length := roundUp? (max capacity 1) system.pageSize | throw system.noMemory
  let base ← system.map length
  if base = 0 then throw system.noMemory
  return ⟨⟨length⟩, .empty 0⟩

/-- The bytes that may still be handed out. -/
def room (region : Region Reserved) : Nat := region.provider.length - region.memory.size

instance : Provider Reserved NoRoom where
  grow count := fun region =>
    if count > room region then .error ⟨count, room region⟩ region
    else .ok region.memory.size (region.append count)

instance : LawfulProvider Reserved where
  appended := by
    intro count base before after hgrow
    simp only [Provider.grow] at hgrow
    split at hgrow
    · exact nomatch hgrow
    · obtain ⟨rfl, rfl⟩ := EStateM.Result.ok.inj hgrow
      exact ⟨rfl, before.memory.appended_extend count⟩
  kept := by
    intro count reason before after hgrow
    simp only [Provider.grow] at hgrow
    split at hgrow
    · rw [(EStateM.Result.error.inj hgrow).2]
    · exact nomatch hgrow

end Reserved

end BoundaryTag
