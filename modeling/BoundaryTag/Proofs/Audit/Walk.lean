import BoundaryTag.Audit.Marks
import BoundaryTag.Proofs.Audit.ListCheck
import Mathlib.Data.List.Perm.Subperm

/-!
# How long a walk over the free list can be

A check of the free list counts its entries, so that it ends. It would end without counting: every
entry but the last one is a free block that was not visited before, and there are only so many of
them. `Heap.Walk` is a walk that counts nothing. There always is one (`Heap.exists_walk`), and a
check with a budget for all free blocks and one more entry comes to the same
(`Heap.Walk.checkLinks_eq`). What holds of walks is proved by induction over them: how long they are
(`Heap.Walk.length_le`), that their entries are different free blocks (`Heap.Walk.distinct`) which
the links lead to (`Heap.Walk.follows`), and that they come back to a block exactly when the links
run on among the free blocks forever (`Heap.Walk.exists_visitedTwice_iff`).
-/

namespace BoundaryTag

variable {σ : Type} {heap : Heap σ} {free seen : List Nat} {bp : Nat} {before link : Option Nat}
  {check : ListCheck}

/-- Different free blocks, as a walk has seen them. -/
structure Seen (free seen : List Nat) : Prop where
  nodup : seen.Nodup
  subset : seen ⊆ free

namespace Seen

theorem nil (free : List Nat) : Seen free [] := ⟨List.nodup_nil, List.nil_subset _⟩

theorem cons (h : Seen free seen) (hfree : bp ∈ free) (hnew : bp ∉ seen) : Seen free (bp :: seen) :=
  ⟨List.nodup_cons.2 ⟨hnew, h.nodup⟩, List.cons_subset.2 ⟨hfree, h.subset⟩⟩

/-- No more blocks can be seen than there are. -/
theorem length_le (h : Seen free seen) : seen.length ≤ free.length :=
  (h.nodup.subperm h.subset).length_le

end Seen

namespace Heap

/-- Both links of a block are read when each of them is. -/
theorem links_eq_iff {found next : Option Nat} :
    heap.links bp = .ok (found, next) ↔
      heap.predecessor bp = .ok found ∧ heap.successor bp = .ok next := by
  constructor
  · intro hlinks
    obtain ⟨back, hback, hrest⟩ := exists_of_bind_eq_ok hlinks
    obtain ⟨forth, hforth, hboth⟩ := exists_of_bind_eq_ok hrest
    obtain ⟨rfl, rfl⟩ := Prod.mk.inj (Except.ok.inj hboth)
    exact ⟨hback, hforth⟩
  · rintro ⟨hback, hforth⟩
    rw [links, hback, ok_bind, hforth, ok_bind]
    rfl

/-- A walk over the free list from `link`, given the free blocks, those seen already and the entry
before. Nothing limits its length. -/
inductive Walk (heap : Heap σ) (free : List Nat) :
    List Nat → Option Nat → Option Nat → ListCheck → Prop where
  /-- The list ends. -/
  | finished (seen : List Nat) (before : Option Nat) : Walk heap free seen before none ⟨[], []⟩
  /-- The list leads to something else than a free block. -/
  | left {seen : List Nat} {before : Option Nat} {bp : Nat} (hfree : bp ∉ free) :
      Walk heap free seen before (some bp) ⟨[.listedNotFree bp], [bp]⟩
  /-- The list comes back to a block. -/
  | returned {seen : List Nat} {before : Option Nat} {bp : Nat} (hfree : bp ∈ free)
      (hseen : bp ∈ seen) : Walk heap free seen before (some bp) ⟨[.visitedTwice bp], [bp]⟩
  /-- The list leads to a free block, and from there on. -/
  | visited {seen : List Nat} {before found next : Option Nat} {bp : Nat} {rest : ListCheck}
      (hfree : bp ∈ free) (hnew : bp ∉ seen) (hfound : heap.predecessor bp = .ok found)
      (hnext : heap.successor bp = .ok next)
      (hrest : Walk heap free (bp :: seen) (some bp) next rest) :
      Walk heap free seen before (some bp)
        ⟨(if found ≠ before then [.wrongPredecessor bp found before] else []) ++ rest.anomalies,
          bp :: rest.visited⟩

/-- Whatever the links are, there is a walk: every block that is seen leaves one less to see. -/
theorem exists_walk (hinside : ∀ bp ∈ free, bp + 8 ≤ heap.memory.size) (hseen : Seen free seen)
    (before link : Option Nat) : ∃ check, heap.Walk free seen before link check := by
  induction hleft : free.length + 1 - seen.length generalizing seen before link with
  | zero =>
      have hlength := hseen.length_le
      omega
  | succ left ih =>
      cases link with
      | none => exact ⟨_, .finished seen before⟩
      | some bp =>
          by_cases hfree : bp ∈ free
          · by_cases hmem : bp ∈ seen
            · exact ⟨_, .returned hfree hmem⟩
            · obtain ⟨rest, hwalk⟩ := ih (hseen.cons hfree hmem) (some bp)
                (heap.memory.link (bp + wordSize)) (by rw [List.length_cons]; omega)
              exact ⟨_, .visited hfree hmem (predecessor_of_le (hinside bp hfree))
                (successor_of_le (hinside bp hfree)) hwalk⟩
          · exact ⟨_, .left hfree⟩

namespace Walk

/-- With a budget for the free blocks that are left and one more entry, a check of the links is the
walk. It is so on every heap in which the free blocks have these links. -/
theorem checkLinks_eq {other : Heap σ} (hlinks : ∀ bp ∈ free, other.links bp = heap.links bp)
    (hwalk : heap.Walk free seen before link check) (hseen : Seen free seen) {budget : Nat}
    (hbudget : free.length + 1 ≤ budget + seen.length) :
    other.checkLinks free budget seen before link = .ok check := by
  induction budget generalizing seen before link check with
  | zero =>
      have hlength := hseen.length_le
      omega
  | succ left ih =>
      cases hwalk with
      | finished => rw [checkLinks]
      | left hfree => rw [checkLinks, if_pos hfree]
      | returned hfree hmem => rw [checkLinks, if_neg (not_not.2 hfree), if_pos hmem]
      | visited hfree hnew hfound hnext hrest =>
          have hcheck := ih hrest (hseen.cons hfree hnew) (by rw [List.length_cons]; omega)
          obtain ⟨hback, hforth⟩ := links_eq_iff.1
            ((hlinks _ hfree).trans (links_eq_iff.2 ⟨hfound, hnext⟩))
          rw [checkLinks, if_neg (not_not.2 hfree), if_neg hnew, hback, ok_bind, hforth, ok_bind,
            hcheck]
          rfl

/-- There is at most one more entry than there are free blocks. -/
theorem length_le (hwalk : heap.Walk free seen before link check) (hseen : Seen free seen) :
    seen.length + check.visited.length ≤ free.length + 1 := by
  induction hwalk with
  | finished => exact Nat.le_succ_of_le hseen.length_le
  | left => exact Nat.succ_le_succ hseen.length_le
  | returned => exact Nat.succ_le_succ hseen.length_le
  | visited hfree hnew _ _ _ ih =>
      have hrest := ih (hseen.cons hfree hnew)
      simp only [List.length_cons] at hrest ⊢
      omega

/-- All entries but the last one are different free blocks that were not seen before. -/
theorem distinct (hwalk : heap.Walk free seen before link check) :
    check.visited.dropLast.Nodup ∧ ∀ bp ∈ check.visited.dropLast, bp ∈ free ∧ bp ∉ seen := by
  induction hwalk with
  | finished => exact ⟨List.nodup_nil, nofun⟩
  | left => exact ⟨List.nodup_nil, nofun⟩
  | returned => exact ⟨List.nodup_nil, nofun⟩
  | @visited seen _ _ _ bp rest hfree hnew _ _ _ ih =>
      obtain ⟨hnodup, hrest⟩ := ih
      cases hvisited : rest.visited with
      | nil => exact ⟨List.nodup_nil, nofun⟩
      | cons first others =>
          rw [List.dropLast_cons_cons, ← hvisited]
          refine ⟨List.nodup_cons.2 ⟨fun hmem => ?_, hnodup⟩,
            List.forall_mem_cons.2 ⟨⟨hfree, hnew⟩, fun other hother => ?_⟩⟩
          · exact (hrest bp hmem).2 List.mem_cons_self
          · exact ⟨(hrest other hother).1, List.not_mem_of_not_mem_cons (hrest other hother).2⟩

/-- The entries are those that the links lead to, one after the other. -/
theorem follows (hwalk : heap.Walk free seen before link check) :
    check.visited.head? = link ∧
      check.visited.IsChain fun bp next => heap.successor bp = .ok (some next) := by
  induction hwalk with
  | finished => exact ⟨rfl, .nil⟩
  | left => exact ⟨rfl, .singleton _⟩
  | returned => exact ⟨rfl, .singleton _⟩
  | visited _ _ _ hnext _ ih =>
      obtain ⟨hhead, hchain⟩ := ih
      refine ⟨rfl, List.isChain_cons.2 ⟨fun next hmem => ?_, hchain⟩⟩
      rw [hnext, ← hhead, Option.mem_def.1 hmem]

/-- What is wrong with a link back has no part in any other anomaly. -/
theorem mem_of_mem_visited {anomaly : Anomaly} {found : Option Nat} {anomalies : List Anomaly}
    (hkind : ∀ bp found before, anomaly ≠ .wrongPredecessor bp found before)
    (hmem : anomaly ∈
      (if found ≠ before then [Anomaly.wrongPredecessor bp found before] else []) ++ anomalies) :
    anomaly ∈ anomalies := by
  rcases List.mem_append.1 hmem with hwrong | hrest
  · split at hwrong
    · exact absurd (List.mem_singleton.1 hwrong) (hkind _ _ _)
    · exact nomatch hwrong
  · exact hrest

/-- The list is never found to be endless: there is another reason to stop before. -/
theorem not_endless (hwalk : heap.Walk free seen before link check) (bp : Nat) :
    .endlessList bp ∉ check.anomalies := by
  induction hwalk with
  | finished => exact List.not_mem_nil
  | left => simp
  | returned => simp
  | visited _ _ _ _ _ ih => exact fun hmem => ih (mem_of_mem_visited nofun hmem)

/-- A block that is reported as visited twice is the last entry, and was seen before. -/
theorem twice_of_visitedTwice (hwalk : heap.Walk free seen before link check)
    (htwice : .visitedTwice bp ∈ check.anomalies) :
    check.visited.getLast? = some bp ∧ (bp ∈ seen ∨ bp ∈ check.visited.dropLast) := by
  induction hwalk with
  | finished => exact nomatch htwice
  | left => simp at htwice
  | returned _ hmem =>
      obtain rfl := Anomaly.visitedTwice.inj (List.mem_singleton.1 htwice)
      exact ⟨rfl, .inl hmem⟩
  | @visited seen _ _ _ entry rest _ _ _ _ _ ih =>
      obtain ⟨hlast, hmem⟩ := ih (mem_of_mem_visited nofun htwice)
      cases hvisited : rest.visited with
      | nil =>
          rw [hvisited] at hlast
          exact nomatch hlast
      | cons first others =>
          rw [List.getLast?_cons_cons, List.dropLast_cons_cons, ← hvisited, List.mem_cons]
          refine ⟨hlast, ?_⟩
          rcases hmem with hmem | hmem
          · exact (List.mem_cons.1 hmem).elim (fun hsame => .inr (.inl hsame)) .inl
          · exact .inr (.inr hmem)

end Walk

/-! ## Lists that run on -/

/-- From this link on, the links lead from free block to free block, and to no end. -/
def RunsOn (heap : Heap σ) (free : List Nat) (link : Option Nat) : Prop :=
  ∃ path : Nat → Nat, link = some (path 0) ∧
    ∀ step, path step ∈ free ∧ heap.successor (path step) = .ok (some (path (step + 1)))

/-- Every one of these blocks is free, and links to one of them. -/
def Closed (heap : Heap σ) (free blocks : List Nat) : Prop :=
  ∀ bp ∈ blocks, bp ∈ free ∧ ∃ next ∈ blocks, heap.successor bp = .ok (some next)

/-- Among blocks that link to each other, the links run on. -/
theorem Closed.runsOn {blocks : List Nat} (hclosed : heap.Closed free blocks) (hbp : bp ∈ blocks) :
    heap.RunsOn free (some bp) := by
  choose! next hnext hlinks using fun bp hbp => (hclosed bp hbp).2
  have hmem : ∀ step, next^[step] bp ∈ blocks := by
    intro step
    induction step with
    | zero => exact hbp
    | succ step ih =>
        rw [Function.iterate_succ_apply']
        exact hnext _ ih
  refine ⟨fun step => next^[step] bp, rfl, fun step => ⟨(hclosed _ (hmem step)).1, ?_⟩⟩
  show heap.successor (next^[step] bp) = .ok (some (next^[step + 1] bp))
  rw [hlinks _ (hmem step), Function.iterate_succ_apply']

namespace Walk

/-- When a walk comes back to a block, the blocks that it has seen link to each other. This is so
because all of them but the last one link to the next one. -/
theorem exists_closed (hwalk : heap.Walk free seen before link check) (hsubset : seen ⊆ free)
    (hseen : ∀ bp ∈ seen, ∃ next, heap.successor bp = .ok (some next) ∧
      (next ∈ seen ∨ link = some next))
    (htwice : .visitedTwice bp ∈ check.anomalies) :
    ∃ blocks, heap.Closed free blocks ∧ seen ⊆ blocks ∧ ∃ first ∈ blocks, link = some first := by
  induction hwalk with
  | finished => exact nomatch htwice
  | left => simp at htwice
  | @returned seen _ first _ hmem =>
      refine ⟨seen, fun bp hbp => ⟨hsubset hbp, ?_⟩, List.Subset.refl seen, first, hmem, rfl⟩
      obtain ⟨next, hnext, hnextMem⟩ := hseen bp hbp
      refine ⟨next, ?_, hnext⟩
      rcases hnextMem with hnextMem | hlink
      · exact hnextMem
      · exact Option.some.inj hlink ▸ hmem
  | @visited seen _ _ next entry rest hfree _ _ hnext hrest ih =>
      have htwice : .visitedTwice bp ∈ rest.anomalies := mem_of_mem_visited nofun htwice
      cases next with
      | none =>
          cases hrest
          exact nomatch htwice
      | some next =>
          have hlinked : ∀ bp ∈ entry :: seen, ∃ after, heap.successor bp = .ok (some after) ∧
              (after ∈ entry :: seen ∨ some next = some after) := by
            refine List.forall_mem_cons.2 ⟨⟨next, hnext, .inr rfl⟩, fun bp hbp => ?_⟩
            obtain ⟨after, hafter, hmem⟩ := hseen bp hbp
            refine ⟨after, hafter, .inl ?_⟩
            rcases hmem with hmem | hlink
            · exact List.mem_cons_of_mem _ hmem
            · exact Option.some.inj hlink ▸ List.mem_cons_self
          obtain ⟨blocks, hclosed, hblocks, -⟩ :=
            ih (List.cons_subset.2 ⟨hfree, hsubset⟩) hlinked htwice
          obtain ⟨hentry, hblocks⟩ := List.cons_subset.1 hblocks
          exact ⟨blocks, hclosed, hblocks, entry, hentry, rfl⟩

/-- Where the links run on, a walk has to come back to a block. -/
theorem exists_visitedTwice (hwalk : heap.Walk free seen before link check)
    (hruns : heap.RunsOn free link) : ∃ bp, .visitedTwice bp ∈ check.anomalies := by
  induction hwalk with
  | finished =>
      obtain ⟨path, hlink, -⟩ := hruns
      exact nomatch hlink
  | left hfree =>
      obtain ⟨path, hlink, hpath⟩ := hruns
      exact absurd (Option.some.inj hlink ▸ (hpath 0).1) hfree
  | returned => exact ⟨_, List.mem_singleton.2 rfl⟩
  | visited _ _ _ hnext _ ih =>
      obtain ⟨path, hlink, hpath⟩ := hruns
      obtain rfl := Option.some.inj hlink
      have hfirst := Except.ok.inj (hnext.symm.trans (hpath 0).2)
      obtain ⟨bp, htwice⟩ := ih ⟨fun step => path (step + 1), hfirst, fun step => hpath (step + 1)⟩
      exact ⟨bp, List.mem_append_right _ htwice⟩

/-- A walk from the head comes back to a block exactly when the links run on among the free
blocks. -/
theorem exists_visitedTwice_iff (hwalk : heap.Walk free [] before link check) :
    (∃ bp, .visitedTwice bp ∈ check.anomalies) ↔ heap.RunsOn free link := by
  constructor
  · rintro ⟨bp, htwice⟩
    obtain ⟨blocks, hclosed, -, first, hfirst, rfl⟩ :=
      hwalk.exists_closed (List.nil_subset _) nofun htwice
    exact hclosed.runsOn hfirst
  · exact hwalk.exists_visitedTwice

end Walk

end Heap

end BoundaryTag
