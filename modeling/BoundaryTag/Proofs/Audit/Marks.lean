import BoundaryTag.Audit.Marks
import BoundaryTag.Proofs.Audit.Verdict
import BoundaryTag.Proofs.Audit.Walk
import Mathlib.Data.List.GetD

/-!
# Following the free list is bounded, whatever the links say

The free blocks that a survey finds are in the order of their addresses
(`Tiles.freeAddresses_ordered`), so bisection finds each of them and nothing else
(`exists_bisect`, `getElem?_of_bisect`), and a list of marks tells which of them were seen
(`Marked.set`). Following the free list with marks therefore comes to what a walk comes to, and
reads the links of no block that is not free (`followMarked_of_walk`). `Heap.exists_boundedCheck`
puts together what holds of a check of the list for every memory and every head.
-/

namespace BoundaryTag

variable {σ : Type} {heap : Heap σ} {free seen : List Nat} {bp : Nat} {before link : Option Nat}
  {check : ListCheck}

/-! ## Bisection -/

section Bisection

variable {values : List Nat} {value low high index : Nat}

/-- What bisection finds is there. -/
theorem getElem?_of_bisectFrom (hhigh : high ≤ values.length)
    (hfound : bisectFrom values value low high = some index) : values[index]? = some value := by
  fun_induction bisectFrom values value low high with
  | case1 low high hrange middle hless ih => exact ih (by omega) hfound
  | case2 low high hrange middle hequal =>
      obtain rfl := Option.some.inj hfound
      have hmiddle : middle < values.length := by omega
      rw [List.getElem?_eq_getElem hmiddle, Nat.compare_eq_eq.1 hequal,
        List.getD_eq_getElem _ _ hmiddle]
  | case3 low high hrange middle hmore ih => exact ih hhigh hfound
  | case4 => exact nomatch hfound

/-- In an increasing list, bisection misses nothing. -/
theorem ne_of_bisectFrom (hordered : values.Pairwise (· < ·)) (hhigh : high ≤ values.length)
    (hnone : bisectFrom values value low high = none) (hlow : low ≤ index) (hindex : index < high) :
    values.getD index 0 ≠ value := by
  -- what lies on the far side of the middle is on the same side of the value as the middle is
  have hstrict : ∀ {first second : Nat}, first < second → second < high →
      values.getD first 0 < values.getD second 0 := by
    intro first second hlt hsecond
    rw [List.getD_eq_getElem _ _ (by omega), List.getD_eq_getElem _ _ (by omega)]
    exact List.pairwise_iff_getElem.1 hordered first second _ _ hlt
  fun_induction bisectFrom values value low high with
  | case1 low high hrange middle hless ih =>
      rcases Nat.lt_trichotomy index middle with hbefore | rfl | hafter
      · exact ih (by omega) hnone hlow hbefore fun hlt hsecond => hstrict hlt (by omega)
      · exact (Nat.compare_eq_lt.1 hless).ne'
      · exact ((Nat.compare_eq_lt.1 hless).trans (hstrict hafter hindex)).ne'
  | case2 low high hrange middle hequal => exact nomatch hnone
  | case3 low high hrange middle hmore ih =>
      rcases Nat.lt_trichotomy index middle with hbefore | rfl | hafter
      · have hmiddle := hstrict hbefore (by omega)
        exact (hmiddle.trans (Nat.compare_eq_gt.1 hmore)).ne
      · exact (Nat.compare_eq_gt.1 hmore).ne
      · exact ih hhigh hnone hafter hindex hstrict
  | case4 low high hrange => omega

/-- A position that bisection finds is that of the value. -/
theorem getElem?_of_bisect (hfound : bisect values value = some index) :
    values[index]? = some value :=
  getElem?_of_bisectFrom (Nat.le_refl _) hfound

/-- Bisection finds every value of an increasing list. -/
theorem exists_bisect (hordered : values.Pairwise (· < ·)) (hmem : value ∈ values) :
    ∃ index, bisect values value = some index := by
  obtain ⟨index, hindex, rfl⟩ := List.mem_iff_getElem.1 hmem
  cases hfound : bisect values values[index] with
  | some found => exact ⟨found, rfl⟩
  | none =>
      have hne := ne_of_bisectFrom hordered (Nat.le_refl _) hfound (Nat.zero_le _) hindex
      exact absurd (List.getD_eq_getElem _ _ hindex) hne

end Bisection

/-! ## Marks -/

/-- There is a mark for every free block, and those of the blocks that were seen are set. -/
structure Marked (free : List Nat) (marks : List Bool) (seen : List Nat) : Prop where
  length_eq : marks.length = free.length
  mark_iff : ∀ {index bp}, free[index]? = some bp → (marks.getD index false = true ↔ bp ∈ seen)

namespace Marked

variable {marks : List Bool} {index : Nat}

/-- At first no mark is set. -/
theorem fresh (free : List Nat) : Marked free (List.replicate free.length false) [] := by
  refine ⟨List.length_replicate, fun {index bp} hindex => ?_⟩
  obtain ⟨hlt, -⟩ := List.getElem?_eq_some_iff.1 hindex
  simp [List.getD_eq_getElem?_getD, hlt]

/-- Setting the mark of a block makes it one that was seen. -/
theorem set (h : Marked free marks seen) (hnodup : free.Nodup) (hindex : free[index]? = some bp) :
    Marked free (marks.set index true) (bp :: seen) := by
  refine ⟨by rw [List.length_set, h.length_eq], fun {other entry} hother => ?_⟩
  obtain ⟨hlt, hbp⟩ := List.getElem?_eq_some_iff.1 hindex
  obtain ⟨hotherLt, hentry⟩ := List.getElem?_eq_some_iff.1 hother
  have hlength := h.length_eq
  rw [List.mem_cons, ← h.mark_iff hother, List.getD_eq_getElem?_getD, List.getElem?_set]
  by_cases hsame : index = other
  · subst hsame
    have hequal : entry = bp := Option.some.inj (hother.symm.trans hindex)
    simp [hequal, hlength, hlt]
  · have hne : entry ≠ bp := by
      rintro rfl
      exact hsame ((List.Nodup.getElem_inj_iff hnodup).1 (hbp.trans hentry.symm))
    rw [if_neg hsame, ← List.getD_eq_getElem?_getD, or_iff_right hne]

end Marked

/-- Following the list with marks comes to what a walk comes to. -/
theorem followMarked_of_walk {links : Nat → Except Fault (Option Nat × Option Nat)}
    {marks : List Bool} (hordered : free.Pairwise (· < ·))
    (hlinks : ∀ bp ∈ free, links bp = heap.links bp) (hseen : Seen free seen)
    (hmarks : Marked free marks seen) (hwalk : heap.Walk free seen before link check) :
    followMarked links free marks seen.length before link = .ok check := by
  have hnodup : free.Nodup := hordered.imp Nat.ne_of_lt
  induction hwalk generalizing marks with
  | finished => rw [followMarked]
  | @left seen _ bp hfree =>
      have hnone : bisect free bp = none := by
        cases hfound : bisect free bp with
        | none => rfl
        | some index =>
            exact absurd (List.mem_of_getElem? (getElem?_of_bisect hfound)) hfree
      rw [followMarked, dif_neg (Nat.not_lt.2 hseen.length_le), hnone]
  | @returned seen _ bp hfree hmem =>
      obtain ⟨index, hindex⟩ := exists_bisect hordered hfree
      have hmark := (hmarks.mark_iff (getElem?_of_bisect hindex)).2 hmem
      rw [followMarked, dif_neg (Nat.not_lt.2 hseen.length_le), hindex]
      exact if_pos hmark
  | @visited seen _ found next bp rest hfree hnew hfound hnext _ ih =>
      obtain ⟨index, hindex⟩ := exists_bisect hordered hfree
      have hentry := getElem?_of_bisect hindex
      have hmark := mt (hmarks.mark_iff hentry).1 hnew
      have hboth : links bp = .ok (found, next) :=
        (hlinks bp hfree).trans (Heap.links_eq_iff.2 ⟨hfound, hnext⟩)
      have hrest := ih (hseen.cons hfree hnew) (hmarks.set hnodup hentry)
      rw [List.length_cons] at hrest
      rw [followMarked, dif_neg (Nat.not_lt.2 hseen.length_le), hindex]
      refine (if_neg hmark).trans ?_
      rw [hboth, ok_bind]
      dsimp only
      rw [hrest]
      rfl

/-! ## The free blocks of a survey -/

/-- The free blocks of a chain are in the order of their addresses. -/
theorem Tiles.freeAddresses_ordered {first stop : Nat} {blocks : List Block}
    (h : Tiles first blocks stop) : (freeAddresses blocks).Pairwise (· < ·) := by
  refine List.pairwise_map.2 (List.Pairwise.filter _ ?_)
  refine h.pairwise.imp_of_mem fun {block other} hblock _ hle => ?_
  have hpos := h.size_pos block hblock
  simp only [Block.stop] at hle
  omega

namespace Heap

/-- What holds of a check of the free list against these free blocks, whatever the links are. -/
structure BoundedCheck (heap : Heap σ) (free : List Nat) (check : ListCheck) : Prop where
  ordered : free.Pairwise (· < ·)
  inside : ∀ bp ∈ free, bp + 8 ≤ heap.memory.size
  length_le : check.visited.length ≤ free.length + 1
  nodup : check.visited.dropLast.Nodup
  subset : ∀ bp ∈ check.visited.dropLast, bp ∈ free
  head_eq : check.visited.head? = heap.free.head
  linked : check.visited.IsChain fun bp next => heap.successor bp = .ok (some next)
  not_endless : ∀ bp, .endlessList bp ∉ check.anomalies
  returns_iff : (∃ bp, .visitedTwice bp ∈ check.anomalies) ↔ heap.RunsOn free heap.free.head
  twice : ∀ bp, .visitedTwice bp ∈ check.anomalies →
    check.visited.getLast? = some bp ∧ bp ∈ check.visited.dropLast
  same_links : ∀ other : Heap σ, other.free.head = heap.free.head →
    (∀ bp ∈ free, other.links bp = heap.links bp) → other.checkList free = .ok check
  marked : ∀ links, (∀ bp ∈ free, links bp = heap.links bp) →
    checkMarked links free heap.free.head = .ok check

/-- Whatever the memory and the head of the free list are, the check of the list ends. It visits
different free blocks, and at most one entry behind them; it reads the links of free blocks only;
and it never has to count its entries, because a list that goes round comes back to a block
before. -/
theorem exists_boundedCheck (heap : Heap σ) (hspace : heap.stop < addressSpace) :
    ∃ survey check, heap.survey = .ok survey ∧ heap.checkList survey.freeBlocks = .ok check ∧
      heap.BoundedCheck survey.freeBlocks check := by
  have hlow : wordSize ≤ heap.start + overhead := Nat.le_add_left_of_le (by decide)
  obtain ⟨survey, last, hsurvey, hconsecutive, hshows, -⟩ := heap.exists_surveyFrom hspace hlow
  have hinside := inside_of_shows hshows
  have htiles : Tiles (heap.start + overhead) (survey.sightings.map Sighting.block) last :=
    ⟨hconsecutive, List.forall_mem_map.2 fun sighting hmem => (hshows sighting hmem).size_pos⟩
  have hordered : survey.freeBlocks.Pairwise (· < ·) :=
    survey.freeBlocks_eq ▸ htiles.freeAddresses_ordered
  have hnil : Seen survey.freeBlocks [] := .nil _
  obtain ⟨check, hwalk⟩ := exists_walk hinside hnil none heap.free.head
  have hcheck : ∀ other : Heap σ, other.free.head = heap.free.head →
      (∀ bp ∈ survey.freeBlocks, other.links bp = heap.links bp) →
      other.checkList survey.freeBlocks = .ok check := by
    intro other hhead hlinks
    rw [checkList, hhead]
    exact hwalk.checkLinks_eq hlinks hnil (Nat.le_refl _)
  refine ⟨survey, check, hsurvey, hcheck heap rfl fun _ _ => rfl, ?_⟩
  have hlength := hwalk.length_le hnil
  rw [List.length_nil, Nat.zero_add] at hlength
  obtain ⟨hnodup, hvisited⟩ := hwalk.distinct
  obtain ⟨hhead, hlinked⟩ := hwalk.follows
  constructor
  case ordered => exact hordered
  case inside => exact hinside
  case length_le => exact hlength
  case nodup => exact hnodup
  case subset => exact fun bp hbp => (hvisited bp hbp).1
  case head_eq => exact hhead
  case linked => exact hlinked
  case not_endless => exact hwalk.not_endless
  case returns_iff => exact hwalk.exists_visitedTwice_iff
  case twice =>
    intro bp htwice
    obtain ⟨hlast, hmem⟩ := hwalk.twice_of_visitedTwice htwice
    exact ⟨hlast, hmem.resolve_left List.not_mem_nil⟩
  case same_links => exact hcheck
  case marked =>
    exact fun links hlinks => followMarked_of_walk hordered hlinks hnil (.fresh _) hwalk

/-- Two free blocks that link to each other in a circle. -/
theorem boundedCheck_of_circle : ∃ (heap : Heap Bounded) (survey : Survey) (check : ListCheck),
    heap.stop < addressSpace ∧ heap.survey = .ok survey ∧
      heap.checkList survey.freeBlocks = .ok check ∧ heap.BoundedCheck survey.freeBlocks check ∧
      check = ⟨[.visitedTwice 16], [16, 32, 16]⟩ := by
  let words : List (Nat × UInt32) := [(4, 9), (8, 9), (12, 16), (24, 16), (28, 16), (40, 16),
    (44, 17), (56, 17), (60, 1), (20, 32), (32, 16), (36, 16)]
  let bytes := words.foldl (fun memory (address, word) => memory.setWord address word)
    ((Memory.empty 0).extend 64)
  let heap : Heap Bounded :=
    { raw .standard ⟨⟨64, 64⟩, bytes⟩ with start := 8, free := ⟨some 16, 2⟩ }
  have hseen : (heap.survey >>= fun survey => heap.checkList survey.freeBlocks).toOption =
      some ⟨[.visitedTwice 16], [16, 32, 16]⟩ := by decide +kernel
  have hspace : heap.stop < addressSpace := by decide +kernel
  obtain ⟨survey, check, hsurvey, hcheck, hbounded⟩ := heap.exists_boundedCheck hspace
  rw [hsurvey, ok_bind, hcheck] at hseen
  exact ⟨heap, survey, check, hspace, hsurvey, hcheck, hbounded, Option.some.inj hseen⟩

end Heap

end BoundaryTag
