import BoundaryTag.Audit.Report
import BoundaryTag.Heap.Allocation

/-!
# Heaps behind a lock

A shared heap is reached only through its lock, and every operation holds the lock until it
ends. So an operation on the shared heap is the same operation on the heap inside
(`Shared.run_hold_eq_ok_iff`, `Shared.run_hold_eq_error_iff`). The operations of several threads
come one after the other, in the order in which they get the lock, and a failed one gives it back as
the others do. Their answers are those of the same operations on the heap inside
(`Shared.hold_mapM_attempt`).
-/

namespace BoundaryTag

/-- A heap behind a lock. -/
structure Shared (σ : Type) where
  inside : Heap σ

namespace Shared

variable {σ ε : Type}

/-- Run an action on the heap inside while holding the lock. -/
def hold (action : HeapM σ α) : EStateM Failure (Shared σ) α := fun shared =>
  match action shared.inside with
  | .ok value heap => .ok value ⟨heap⟩
  | .error failure heap => .error failure ⟨heap⟩

variable {shared after : Shared σ} {action : HeapM σ α} {value : α} {failure : Failure}

/-- What succeeds on the shared heap succeeds on the heap inside, with the same value. -/
theorem run_hold_eq_ok_iff : (hold action).run shared = .ok value after ↔
    action.run shared.inside = .ok value after.inside := by
  unfold EStateM.run hold
  cases action shared.inside with
  | ok found heap =>
      obtain ⟨inside⟩ := after
      simp
  | error cause heap => simp

/-- What fails on the shared heap fails on the heap inside, for the same reason. -/
theorem run_hold_eq_error_iff : (hold action).run shared = .error failure after ↔
    action.run shared.inside = .error failure after.inside := by
  unfold EStateM.run hold
  cases action shared.inside with
  | ok found heap => simp
  | error cause heap =>
      obtain ⟨inside⟩ := after
      simp

/-- Giving the lock back between two actions makes no difference. -/
theorem hold_bind (action : HeapM σ α) (next : α → HeapM σ β) :
    hold (action >>= next) = hold action >>= fun value => hold (next value) := by
  funext shared
  show hold (action.bind next) shared = (hold action).bind (fun value => hold (next value)) shared
  unfold hold EStateM.bind
  dsimp only
  cases action shared.inside <;> rfl

/-- The outcome of an action, which is also an outcome when it is a failure. -/
def attempt {τ : Type} (action : EStateM Failure τ α) : EStateM Failure τ (Except Failure α) :=
  fun state =>
    match action state with
    | .ok value after => .ok (.ok value) after
    | .error failure after => .ok (.error failure) after

/-- A failure gives the lock back, too. -/
theorem hold_attempt (action : HeapM σ α) : hold (attempt action) = attempt (hold action) := by
  funext shared
  unfold hold attempt
  dsimp only
  cases action shared.inside <;> rfl

/-- Operations that take the lock one after the other have the outcomes that they have on the heap
inside. -/
theorem hold_mapM_attempt (actions : List (HeapM σ α)) :
    hold (actions.mapM attempt) = actions.mapM fun action => attempt (hold action) := by
  induction actions with
  | nil => rfl
  | cons action actions ih =>
      rw [List.mapM_cons, List.mapM_cons, hold_bind, hold_attempt, ← ih]
      refine congrArg _ (funext fun outcome => ?_)
      exact hold_bind (actions.mapM attempt) fun outcomes => pure (outcome :: outcomes)

/-- Free a block. -/
def release (address : Nat) : EStateM Failure (Shared σ) Unit := hold (Heap.release address)

/-- The verdict of an audit and the statistics. -/
def summary : EStateM Failure (Shared σ) (Tally × Usage) := hold (HeapM.observe (·.summary))

variable [Provider σ ε]

/-- Allocate a block with at least `request` bytes of payload. -/
def allocate (request : Nat) : EStateM Failure (Shared σ) Nat := hold (Heap.allocate request)

/-- Move a block into a new one of at least `request` bytes of payload. -/
def reallocate (address request : Nat) : EStateM Failure (Shared σ) Nat :=
  hold (Heap.reallocate address request)

end Shared

end BoundaryTag
