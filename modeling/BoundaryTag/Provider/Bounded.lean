import BoundaryTag.Failure
import BoundaryTag.Provider.Basic

/-!
# A bounded buffer of zeros

The simplest provider: a buffer of zero bytes, handed out from the front, that can be told to stop
before it is full.
-/

namespace BoundaryTag

/-- A buffer of `capacity` bytes, of which at most `limit` may be handed out. -/
structure Bounded where
  capacity : Nat
  limit : Nat

namespace Bounded

/-- The capacity of a buffer for which none is asked. -/
def defaultCapacity : Nat := 256 * 1024

/-- The largest capacity that a buffer can have: half of the address space, so that the distance of
any two of its bytes is a signed 64-bit number. -/
def largestCapacity : Nat := 0x7fff_ffff_ffff_ffff

/-- A fresh buffer, of which nothing has been handed out. -/
def region (capacity : Nat) : Region Bounded where
  provider := ⟨capacity, capacity⟩
  memory := .empty 0

/-- A fresh buffer of a capacity that a buffer can have. -/
def region? (capacity : Nat) : Except Fault (Region Bounded) :=
  if capacity ≤ largestCapacity then .ok (region capacity) else .error .oversizedBuffer

/-- Hand out no more than `limit` bytes in total. -/
def limitTo (limit : Nat) (region : Region Bounded) : Region Bounded :=
  { region with provider.limit := min limit region.provider.capacity }

/-- Hand out nothing more. -/
def stopGrowing (region : Region Bounded) : Region Bounded :=
  { region with provider.limit := region.memory.size }

/-- The bytes that may still be handed out. -/
def room (region : Region Bounded) : Nat := region.provider.limit - region.memory.size

instance : Provider Bounded Unit where
  grow count := fun region =>
    if count > room region then .error () region
    else .ok region.memory.size (region.append count)

instance : LawfulProvider Bounded where
  appended := by
    intro count base before after hgrow
    simp only [Provider.grow] at hgrow
    split at hgrow
    · exact nomatch hgrow
    · obtain ⟨rfl, rfl⟩ := EStateM.Result.ok.inj hgrow
      exact ⟨rfl, before.memory.appended_extend count⟩
  kept := by
    intro count reason before after hgrow
    simp only [Provider.grow] at hgrow
    split at hgrow
    · rw [(EStateM.Result.error.inj hgrow).2]
    · exact nomatch hgrow

end Bounded

end BoundaryTag
