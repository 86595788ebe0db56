import BoundaryTag.Audit.ListCheck
import BoundaryTag.Proofs.Heap.FreeList

/-!
# What following the links says of any memory

The check of the free list reads the links of blocks that are known to be free, and of no others.
As long as these lie inside of the memory, it ends (`Heap.exists_checkLinks`), and when it has
nothing to report, the blocks that it visited are linked to each other in this order
(`Heap.linked_of_checkLinks`).
-/

namespace BoundaryTag

variable {σ : Type} {heap : Heap σ} {free visited order : List Nat} {budget bp : Nat}
  {before link : Option Nat}

namespace Heap

/-- The check of the list ends whatever the links are. -/
theorem exists_checkLinks (hinside : ∀ bp ∈ free, bp + 8 ≤ heap.memory.size) (budget : Nat)
    (visited : List Nat) (before link : Option Nat) :
    ∃ check, heap.checkLinks free budget visited before link = .ok check := by
  induction budget generalizing visited before link with
  | zero => cases link <;> exact ⟨_, rfl⟩
  | succ budget ih =>
      cases link with
      | none => exact ⟨_, rfl⟩
      | some bp =>
          rw [checkLinks]
          by_cases hfree : bp ∈ free
          · rw [if_neg (not_not.2 hfree)]
            by_cases hvisited : bp ∈ visited
            · rw [if_pos hvisited]
              exact ⟨_, rfl⟩
            · obtain ⟨rest, hrest⟩ :=
                ih (bp :: visited) (some bp) (heap.memory.link (bp + wordSize))
              rw [if_neg hvisited, predecessor_of_le (hinside bp hfree), ok_bind,
                successor_of_le (hinside bp hfree), ok_bind, hrest]
              exact ⟨_, rfl⟩
          · rw [if_pos hfree]
            exact ⟨_, rfl⟩

/-- A check that reports nothing visited different free blocks, each of them linked to the next one
and back to the one before, up to the end of the list. -/
theorem linked_of_checkLinks (hinside : ∀ bp ∈ free, bp + 8 ≤ heap.memory.size)
    (h : heap.checkLinks free budget visited before link = .ok ⟨[], order⟩) :
    heap.memory.Linked before order ∧ link = order.head? ∧ order.Nodup ∧
      ∀ bp ∈ order, bp ∈ free ∧ bp ∉ visited := by
  induction budget generalizing visited before link order with
  | zero =>
      cases link with
      | none =>
          rw [checkLinks, Except.ok.injEq, ListCheck.mk.injEq] at h
          obtain ⟨-, rfl⟩ := h
          exact ⟨trivial, rfl, List.nodup_nil, by simp⟩
      | some bp =>
          rw [checkLinks, Except.ok.injEq, ListCheck.mk.injEq] at h
          exact nomatch h.1
  | succ budget ih =>
      cases link with
      | none =>
          rw [checkLinks, Except.ok.injEq, ListCheck.mk.injEq] at h
          obtain ⟨-, rfl⟩ := h
          exact ⟨trivial, rfl, List.nodup_nil, by simp⟩
      | some bp =>
          rw [checkLinks] at h
          split at h
          · exact nomatch (ListCheck.mk.inj (Except.ok.inj h)).1
          next hfree =>
            rw [not_not] at hfree
            split at h
            · exact nomatch (ListCheck.mk.inj (Except.ok.inj h)).1
            next hvisited =>
              obtain ⟨rest, hrest⟩ := exists_checkLinks hinside budget (bp :: visited) (some bp)
                (heap.memory.link (bp + wordSize))
              rw [predecessor_of_le (hinside bp hfree), ok_bind,
                successor_of_le (hinside bp hfree), ok_bind, hrest, ok_bind] at h
              obtain ⟨hanomalies, rfl⟩ := ListCheck.mk.inj (Except.ok.inj h)
              obtain ⟨hwrong, hnone⟩ := List.append_eq_nil_iff.1 hanomalies
              have hback : heap.memory.link bp = before := by
                by_contra hne
                rw [if_pos hne] at hwrong
                exact nomatch hwrong
              rw [show rest = ⟨[], rest.visited⟩ by rw [← hnone]] at hrest
              obtain ⟨hlinked, hhead, hnodup, hnew⟩ := ih hrest
              refine ⟨⟨hback, hhead, hlinked⟩, rfl, List.nodup_cons.2 ⟨fun hmem => ?_, hnodup⟩,
                List.forall_mem_cons.2 ⟨⟨hfree, hvisited⟩, fun other hother => ?_⟩⟩
              · exact (hnew bp hmem).2 List.mem_cons_self
              · exact ⟨(hnew other hother).1, List.not_mem_of_not_mem_cons (hnew other hother).2⟩

end Heap

/-- There is nothing to report on a list when following it found nothing, all free blocks were
visited, and the count is right. -/
theorem ListCheck.allAnomalies_eq_nil_iff {check : ListCheck} {count : Nat} :
    check.allAnomalies free count = [] ↔ check.anomalies = [] ∧
      (∀ bp ∈ free, bp ∈ check.visited) ∧ count = check.visited.length := by
  rw [allAnomalies, List.append_eq_nil_iff, List.append_eq_nil_iff, and_assoc,
    List.map_eq_nil_iff, List.filter_eq_nil_iff]
  simp

end BoundaryTag
