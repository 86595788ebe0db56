import BoundaryTag.Client
import BoundaryTag.Heap.Blocks
import BoundaryTag.Heap.Lemmas
import BoundaryTag.Heap.WellFormed
import BoundaryTag.Layout.FirstFit
import BoundaryTag.Provider.Bounded
import BoundaryTag.Provider.Buffer
import BoundaryTag.Provider.Logged
import BoundaryTag.Provider.Reserved
import BoundaryTag.Proofs.Provider.Lockstep
import BoundaryTag.Proofs.Provider.Buffer
import BoundaryTag.Masks
import BoundaryTag.Shared
import BoundaryTag.Proofs.Layout.Chain
import BoundaryTag.Proofs.Layout.Merge
import BoundaryTag.Proofs.Layout.Coalesce
import BoundaryTag.Proofs.Memory.Links
import BoundaryTag.Proofs.Heap.FreeList
import BoundaryTag.Proofs.Heap.Sound
import BoundaryTag.Proofs.Heap.Settling
import BoundaryTag.Proofs.Heap.Placement
import BoundaryTag.Proofs.Heap.Frame
import BoundaryTag.Proofs.Heap.Growth
import BoundaryTag.Proofs.Heap.Creation
import BoundaryTag.Proofs.Heap.Operations
import BoundaryTag.Proofs.Heap.Walks
import BoundaryTag.Proofs.Heap.ExactWords
import BoundaryTag.Layout.Mirror
import BoundaryTag.Proofs.Client.Steps
import BoundaryTag.Proofs.Client.Refinement
import BoundaryTag.Client.Session
import BoundaryTag.Proofs.Client.Invariant
import BoundaryTag.Proofs.Client.Safety
import BoundaryTag.Proofs.Client.Ownership
import BoundaryTag.Proofs.Client.Refusals
import BoundaryTag.Proofs.Layout.Runs
import BoundaryTag.Proofs.Client.Coalescing
import BoundaryTag.Proofs.Audit.ListCheck
import BoundaryTag.Proofs.Audit.Walk
import BoundaryTag.Proofs.Audit.Survey
import BoundaryTag.Proofs.Audit.Verdict
import BoundaryTag.Proofs.Audit.Marks
import BoundaryTag.Client.Script
import BoundaryTag.Proofs.Layout.Shift
import BoundaryTag.Proofs.Heap.Requests
import BoundaryTag.Proofs.Client.Outlook
import BoundaryTag.Proofs.Client.Noninterference
import BoundaryTag.Proofs.Heap.Opening
import BoundaryTag.Proofs.Client.Accounting
import BoundaryTag.Proofs.Heap.ListEdits
import BoundaryTag.Proofs.Heap.PlainWords
import BoundaryTag.Proofs.Client.Stale
import BoundaryTag.Proofs.Client.Moving
import BoundaryTag.Proofs.Layout.Reuse
import BoundaryTag.Proofs.Heap.Restoring
import BoundaryTag.Proofs.Client.Reuse
import BoundaryTag.Proofs.Audit.Corruption
import BoundaryTag.Proofs.Heap.Appending
import BoundaryTag.Proofs.Heap.Tiling
import BoundaryTag.Proofs.Heap.Sizes
import BoundaryTag.Proofs.Heap.Choosing
import BoundaryTag.Proofs.Client.Receiving
import BoundaryTag.Audit.Marks
import BoundaryTag.Audit.Scan
import BoundaryTag.Proofs.Audit.Scan
import BoundaryTag.Proofs.Audit.Lines
