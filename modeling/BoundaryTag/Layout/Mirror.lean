import BoundaryTag.Client
import BoundaryTag.Layout.FirstFit

/-!
# Calls on layouts

What the calls of a client answer and do, told by the layout of the heap alone. Writing into a
payload does nothing to a layout, and a call that is refused does nothing at all.
-/

namespace BoundaryTag.Layout

/-- The answer to a request that may be refused, and the layout afterwards. -/
def outcome (layout : Layout) : Except Refusal (Nat × Layout) → Answer × Layout
  | .ok (address, next) => (.block address, next)
  | .error reason => (.refused reason, layout)

/-- A request that was answered with a block was met. -/
theorem eq_ok_of_outcome {layout : Layout} {result : Except Refusal (Nat × Layout)} {address : Nat}
    (h : (layout.outcome result).1 = .block address) :
    result = .ok (address, (layout.outcome result).2) := by
  cases result with
  | error reason => exact nomatch h
  | ok found => rw [← Answer.block.inj h]; rfl

/-- The answer to a call, and the layout afterwards, given which requests for more memory are
granted. -/
def perform (layout : Layout) (settings : Settings) (granted : Nat → Bool) : Call → Answer × Layout
  | .allocate request => layout.outcome (layout.allocate settings granted request)
  | .release address => (.done, layout.release address)
  | .reallocate address request =>
      layout.outcome (layout.reallocate settings granted address request)
  | .write .. => (.done, layout)

/-- The answers to the calls of a run, and the layout afterwards. -/
def replay (layout : Layout) (settings : Settings) : List Turn → List Answer × Layout
  | [] => ([], layout)
  | turn :: turns =>
      let (answer, next) := layout.perform settings turn.granted turn.call
      let (answers, last) := next.replay settings turns
      (answer :: answers, last)

end BoundaryTag.Layout
