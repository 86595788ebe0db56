import BoundaryTag.Proofs.Heap.Operations

/-!
# What freeing leaves in old headers

Once a freed block has been merged, its header is an ordinary word inside of a larger free block,
and later tags and links are written all around it. No flag is ever set there by accident: whatever
freeing writes is a multiple of four, and so is the address where it is written. Such a word is
called plain. `Heap.PlainOn` says that some words of a heap are plain, and
`Heap.Sound.plainOn_of_run_release` that they stay so when a block is freed, and that the header of
the freed block becomes one of them. The proof goes through the actions one by one, as properties
that they preserve (`HeapM.Preserves`).
-/

namespace BoundaryTag

open HeapM

variable {σ α β : Type}

/-! ## Properties that an action preserves -/

namespace HeapM

/-- If the property holds before the action, and the action succeeds, then it holds afterwards. -/
structure Preserves (property : Heap σ → Prop) (action : HeapM σ α) : Prop where
  of_run : ∀ {heap after : Heap σ} {value : α}, property heap →
    action.run heap = .ok value after → property after

variable {property : Heap σ → Prop} {action : HeapM σ α} {next : α → HeapM σ β}

namespace Preserves

theorem bind (haction : Preserves property action)
    (hnext : ∀ value, Preserves property (next value)) :
    Preserves property (action >>= next) where
  of_run h hrun := by
    obtain ⟨value, middle, hfirst, hrest⟩ := exists_of_run_bind hrun
    exact (hnext value).of_run (haction.of_run h hfirst) hrest

theorem pure_bind {value : α} (hnext : Preserves property (next value)) :
    Preserves property (pure value >>= next) := hnext

/-- What was read is known to come from a heap with the property. -/
theorem observe_bind {read : Heap σ → Except Fault α}
    (hnext : ∀ heap value, property heap → read heap = .ok value →
      Preserves property (next value)) : Preserves property (observe read >>= next) where
  of_run {heap after value} h hrun := by
    obtain ⟨found, hread, hrest⟩ := exists_of_run_observe_bind hrun
    exact (hnext heap found h hread).of_run h hrest

theorem get_bind {next : Heap σ → HeapM σ β}
    (hnext : ∀ heap, property heap → Preserves property (next heap)) :
    Preserves property (get >>= next) where
  of_run {heap after value} h hrun := by
    rw [run_bind_of_ok (run_get heap)] at hrun
    exact (hnext heap h).of_run h hrun

theorem ofExcept_bind {result : Except Fault α}
    (hnext : ∀ value, result = .ok value → Preserves property (next value)) :
    Preserves property (ofExcept result >>= next) where
  of_run {heap after value} h hrun := by
    obtain ⟨found, hfound, hrest⟩ := exists_of_run_ofExcept_bind hrun
    exact (hnext found hfound).of_run h hrest

theorem modify {change : Heap σ → Heap σ}
    (hchange : ∀ heap, property heap → property (change heap)) :
    Preserves property (modify change : HeapM σ Unit) where
  of_run {heap after value} h hrun := by
    obtain ⟨-, rfl⟩ := EStateM.Result.ok.inj hrun
    exact hchange heap h

theorem fault_bind {cause : Fault} : Preserves property (fault cause >>= next) where
  of_run _ hrun := nomatch hrun

theorem ite {condition : Prop} [Decidable condition] {other : HeapM σ α}
    (haction : Preserves property action) (hother : Preserves property other) :
    Preserves property (if condition then action else other) := by
  split
  · exact haction
  · exact hother

theorem pure (value : α) : Preserves property (pure value : HeapM σ α) where
  of_run {heap after found} h hrun := by
    obtain ⟨-, rfl⟩ := EStateM.Result.ok.inj hrun
    exact h

end Preserves

end HeapM

/-! ## Plain words -/

namespace Memory

variable {memory : Memory} {address target : Nat} {link : Option Nat}

/-- The word at this address is a multiple of four, as links and the tags of free blocks are. -/
def Plain (memory : Memory) (address : Nat) : Prop := (memory.word address).toNat % 4 = 0

/-- A plain word stays plain when a plain word is written, to a multiple of four as well. -/
theorem Plain.setWord (h : memory.Plain address) (haddress : address % 4 = 0)
    (htarget : target % 4 = 0) (hinside : target + 4 ≤ memory.size) {word : UInt32}
    (hword : word.toNat % 4 = 0) : (memory.setWord target word).Plain address := by
  unfold Plain
  by_cases heq : address = target
  · rw [heq, word_setWord_same memory word hinside]
    exact hword
  · rw [word_setWord_of_disjoint memory word (by omega)]
    exact h

/-- A plain word has no flag. -/
theorem Plain.allocated_eq (h : memory.Plain address) : (memory.tag address).allocated = false := by
  show decide ((memory.word address).toNat % 2 = 1) = false
  unfold Plain at h
  exact decide_eq_false (by omega)

/-- A link to a multiple of four is plain, and so is no link. -/
theorem plain_of_link (hlink : memory.link address = link) (haligned : ∀ bp ∈ link, bp % 4 = 0) :
    memory.Plain address := by
  unfold Plain
  unfold Memory.link linkOfWord at hlink
  split at hlink
  next hzero => rw [hzero]; rfl
  next => exact haligned _ hlink.symm

/-- The address in a plain link is a multiple of four. -/
theorem Plain.aligned_link (h : memory.Plain address) :
    ∀ bp ∈ linkOfWord (memory.word address), bp % 4 = 0 := by
  intro bp hbp
  unfold linkOfWord at hbp
  split at hbp
  · exact nomatch hbp
  · obtain rfl : (memory.word address).toNat = bp := Option.some.inj hbp
    exact h

end Memory

namespace Heap

variable {heap after tagged : Heap σ} {words : Nat → Prop} {layout : Layout} {block : Block}
  {bp size address : Nat} {link : Option Nat}

/-- These words are plain, and so are their addresses and the head of the free list. -/
structure PlainOn (heap : Heap σ) (words : Nat → Prop) : Prop where
  head : ∀ bp ∈ heap.free.head, bp % 4 = 0
  aligned : ∀ address, words address → address % 4 = 0
  plain : ∀ address, words address → heap.memory.Plain address

namespace PlainOn

theorem mono {fewer : Nat → Prop} (h : heap.PlainOn words)
    (hfewer : ∀ address, fewer address → words address) : heap.PlainOn fewer where
  head := h.head
  aligned address hmem := h.aligned address (hfewer address hmem)
  plain address hmem := h.plain address (hfewer address hmem)

theorem or {others : Nat → Prop} (h : heap.PlainOn words) (h' : heap.PlainOn others) :
    heap.PlainOn fun address => words address ∨ others address where
  head := h.head
  aligned address hmem := hmem.elim (h.aligned address) (h'.aligned address)
  plain address hmem := hmem.elim (h.plain address) (h'.plain address)

/-- A link that is read from a plain word is a multiple of four. -/
theorem aligned_of_linkAt (h : heap.PlainOn words) (haddress : words address)
    (hread : heap.linkAt address = .ok link) : ∀ bp ∈ link, bp % 4 = 0 := by
  unfold linkAt wordAt at hread
  split at hread
  · obtain rfl := Except.ok.inj hread
    exact (h.plain address haddress).aligned_link
  · exact nomatch hread

end PlainOn

/-! ## The actions -/

theorem preserves_setWordAt {offset : Nat} {word : UInt32} (hoffset : offset % 4 = 0)
    (hword : word.toNat % 4 = 0) :
    Preserves (PlainOn · words) (setWordAt offset word : HeapM σ Unit) where
  of_run {heap after value} h hrun := by
    by_cases hinside : offset + 4 ≤ heap.memory.size
    · rw [run_setWordAt hinside] at hrun
      obtain ⟨-, rfl⟩ := EStateM.Result.ok.inj hrun
      refine ⟨h.head, h.aligned, fun address hmem => ?_⟩
      exact (h.plain address hmem).setWord (h.aligned address hmem) hoffset hinside hword
    · have hfault : (setWordAt offset word).run heap = .error (.fault .outOfBounds) heap :=
        if_neg hinside
      rw [hfault] at hrun
      exact nomatch hrun

theorem preserves_setLinkAt {offset : Nat} (hoffset : offset % 4 = 0)
    (hlink : ∀ bp ∈ link, bp % 4 = 0) :
    Preserves (PlainOn · words) (setLinkAt offset link : HeapM σ Unit) := by
  refine preserves_setWordAt hoffset ?_
  have hvalue : link.getD 0 % 4 = 0 := by
    cases link with
    | none => rfl
    | some bp => exact hlink bp rfl
  rw [wordOfLink, UInt32.toNat_ofNat']
  omega

/-- The tag of a free block is a multiple of four. -/
theorem bits_mod_ofSize (haligned : size % 8 = 0) : (Tag.ofSize size false).bits.toNat % 4 = 0 := by
  simp only [Tag.ofSize, UInt32.toNat_ofNat', Bool.toNat_false]
  omega

theorem preserves_setTags (hbp : bp % 4 = 0) :
    Preserves (PlainOn · words) (setTags bp size false : HeapM σ Unit) := by
  refine .ofExcept_bind fun tag hpack => .ofExcept_bind fun header hheader => ?_
  obtain ⟨hsize, -, rfl⟩ := Tag.eq_of_pack hpack
  have hbits := bits_mod_ofSize hsize
  have hheaderAligned : header % 4 = 0 := by
    obtain ⟨hlow, rfl⟩ := Address.eq_of_sub hheader
    simp only [wordSize] at hlow ⊢
    omega
  refine .bind (preserves_setWordAt hheaderAligned hbits) fun _ =>
    .ofExcept_bind fun footer hfooter => preserves_setWordAt ?_ hbits
  obtain ⟨stop, hstop, hoffset⟩ := exists_of_bind_eq_ok hfooter
  obtain rfl := Address.eq_of_add hstop
  obtain ⟨hlow, rfl⟩ := Address.eq_of_sub hoffset
  simp only [overhead, wordSize] at hlow ⊢
  omega

theorem preserves_enlist (hbp : bp % 4 = 0) :
    Preserves (PlainOn · words) (enlist bp : HeapM σ Unit) := by
  have hlink : ∀ node ∈ some bp, node % 4 = 0 := by
    rintro node ⟨⟩
    exact hbp
  have hfirst : Preserves (PlainOn · words)
      (modify fun heap : Heap σ => { heap with free := ⟨some bp, heap.free.count + 1⟩ }) :=
    .modify fun heap h => ⟨hlink, h.aligned, h.plain⟩
  refine .get_bind fun heap h => .bind (preserves_setLinkAt hbp (by simp)) fun _ =>
    .bind (preserves_setLinkAt (by simp only [wordSize]; omega) h.head) fun _ => ?_
  cases hhead : heap.free.head with
  | none => exact hfirst
  | some old => exact .bind (preserves_setLinkAt (h.head old hhead) hlink) fun _ => hfirst

/-- Delisting moves the links of a block to its neighbours, so these have to be plain already. -/
theorem preserves_delist (hself : words bp) (hnext : words (bp + wordSize)) :
    Preserves (PlainOn · words) (delist bp : HeapM σ Unit) := by
  refine .observe_bind fun heap before h hreadBefore =>
    .observe_bind fun heap' after h' hreadAfter => ?_
  have hbefore := h.aligned_of_linkAt hself hreadBefore
  have hafter := h'.aligned_of_linkAt hnext hreadAfter
  have hclear : Preserves (PlainOn · words) (do
      setPredecessor bp none
      setSuccessor bp none
      let count ← observe fun heap => Address.sub heap.free.count 1
      modify ({ · with free.count := count }) : HeapM σ Unit) :=
    .bind (preserves_setLinkAt (h.aligned bp hself) (by simp)) fun _ =>
      .bind (preserves_setLinkAt (h.aligned _ hnext) (by simp)) fun _ =>
        .observe_bind fun _ _ _ _ => .modify fun _ h => ⟨h.head, h.aligned, h.plain⟩
  have hnewHead : Preserves (PlainOn · words)
      (modify fun heap : Heap σ => { heap with free.head := after }) :=
    .modify fun _ h => ⟨hafter, h.aligned, h.plain⟩
  have hforward : ∀ node ∈ before, Preserves (PlainOn · words)
      (setSuccessor node after : HeapM σ Unit) := by
    intro node hnode
    have haligned := hbefore node hnode
    exact preserves_setLinkAt (by simp only [wordSize]; omega) hafter
  cases after with
  | none =>
      have hhead : Preserves (PlainOn · words) (do
          modify fun heap : Heap σ => { heap with free.head := none }
          _ : HeapM σ Unit) := .bind hnewHead fun _ => hclear
      cases before with
      | none => exact .get_bind fun _ _ => .ite .fault_bind hhead
      | some node => exact .bind (hforward node rfl) fun _ => hclear
  | some next =>
      have hbackward : Preserves (PlainOn · words) (do
          setPredecessor next before
          _ : HeapM σ Unit) :=
        .bind (preserves_setLinkAt (hafter next rfl) hbefore) fun _ => hclear
      cases before with
      | none =>
          have hhead : Preserves (PlainOn · words) (do
              modify fun heap : Heap σ => { heap with free.head := some next }
              _ : HeapM σ Unit) := .bind hnewHead fun _ => hbackward
          exact .get_bind fun _ _ => .ite .fault_bind hhead
      | some node => exact .bind (hforward node rfl) fun _ => hbackward

/-- Settling delists the free neighbours of a block and enlists what it merges, so it keeps words
plain among which are the links of these neighbours. -/
theorem PlainOn.run_settle (h : heap.PlainOn words) (hbp : bp % 4 = 0)
    (hprevious : ∀ prev, heap.blockBefore bp = .ok prev → heap.isAllocated prev = .ok false →
      words prev ∧ words (prev + wordSize))
    (hfollowing : ∀ next, heap.blockAfter bp = .ok next → heap.isAllocated next = .ok false →
      words next ∧ words (next + wordSize)) {merged : Nat} {settled : Heap σ}
    (hrun : (settle bp).run heap = .ok merged settled) : settled.PlainOn words := by
  have hlist : ∀ merged : Nat, merged % 4 = 0 →
      Preserves (PlainOn · words) (do enlist merged; return merged : HeapM σ Nat) :=
    fun merged haligned => .bind (preserves_enlist haligned) fun _ => .pure merged
  obtain ⟨prev, hprev, hrun⟩ := exists_of_run_observe_bind hrun
  obtain ⟨next, hnext, hrun⟩ := exists_of_run_observe_bind hrun
  obtain ⟨prevAllocated, hprevAllocated, hrun⟩ := exists_of_run_observe_bind hrun
  obtain ⟨nextAllocated, hnextAllocated, hrun⟩ := exists_of_run_observe_bind hrun
  obtain ⟨size, -, hrun⟩ := exists_of_run_observe_bind hrun
  have hdelistPrev : prevAllocated = false → prev % 4 = 0 ∧
      Preserves (PlainOn · words) (delist prev : HeapM σ Unit) := by
    rintro rfl
    obtain ⟨hself, hlink⟩ := hprevious prev hprev hprevAllocated
    exact ⟨h.aligned prev hself, preserves_delist hself hlink⟩
  have hdelistNext : nextAllocated = false →
      Preserves (PlainOn · words) (delist next : HeapM σ Unit) := by
    rintro rfl
    obtain ⟨hself, hlink⟩ := hfollowing next hnext hnextAllocated
    exact preserves_delist hself hlink
  cases prevAllocated with
  | true =>
      cases nextAllocated with
      | true => exact (Preserves.pure_bind (hlist bp hbp)).of_run h hrun
      | false =>
          suffices hkeeps : Preserves (PlainOn · words) _ from hkeeps.of_run h hrun
          exact .bind (hdelistNext rfl) fun _ => .observe_bind fun _ _ _ _ =>
            .bind (preserves_setTags hbp) fun _ => .pure_bind (hlist bp hbp)
  | false =>
      obtain ⟨hprevAligned, hdelistPrev⟩ := hdelistPrev rfl
      cases nextAllocated with
      | true =>
          suffices hkeeps : Preserves (PlainOn · words) _ from hkeeps.of_run h hrun
          exact .bind hdelistPrev fun _ => .observe_bind fun _ _ _ _ =>
            .bind (preserves_setTags hprevAligned) fun _ => .pure_bind (hlist prev hprevAligned)
      | false =>
          suffices hkeeps : Preserves (PlainOn · words) _ from hkeeps.of_run h hrun
          exact .bind hdelistPrev fun _ => .bind (hdelistNext rfl) fun _ =>
            .observe_bind fun _ _ _ _ => .observe_bind fun _ _ _ _ =>
              .bind (preserves_setTags hprevAligned) fun _ =>
                .pure_bind (hlist prev hprevAligned)

/-! ## Freeing a block -/

namespace Sound

/-- The links of all listed blocks are plain, since they lead to aligned blocks. -/
theorem plainOn_links (h : heap.Sound layout) : heap.PlainOn fun address =>
    ∃ bp ∈ layout.order, address = bp ∨ address = bp + wordSize := by
  have haligned : ∀ bp ∈ layout.order, bp % 4 = 0 := by
    intro bp hbp
    obtain ⟨block, hblock, -, rfl⟩ := h.exists_block hbp
    have haddress := h.address_aligned hblock
    simp only [alignment] at haddress
    omega
  constructor
  case head =>
    intro bp hbp
    rw [h.lists.head_eq] at hbp
    exact haligned bp (List.mem_of_mem_head? hbp)
  case aligned =>
    rintro address ⟨bp, hbp, rfl | rfl⟩
    · exact haligned address hbp
    · have hlisted := haligned bp hbp
      simp only [wordSize]
      omega
  case plain =>
    rintro address ⟨bp, hbp, hlink⟩
    obtain ⟨front, rest, horder⟩ := List.append_of_mem hbp
    have hlinked := h.lists.linked
    rw [horder] at hlinked haligned
    obtain ⟨hpred, hsucc⟩ := hlinked.middle
    rcases hlink with rfl | rfl
    · refine Memory.plain_of_link hpred fun node hnode => haligned node ?_
      rw [Option.or_none] at hnode
      exact List.mem_append_left _ (List.mem_of_mem_getLast? hnode)
    · refine Memory.plain_of_link hsucc fun node hnode => haligned node ?_
      exact List.mem_append_right _ (List.mem_cons_of_mem _ (List.mem_of_mem_head? hnode))

/-- When a block is freed, plain words stay plain, and the header of the block becomes one of them:
it gets the tag of a free block, and after that only its links and those of its neighbours change
and the tags of what they become. -/
theorem plainOn_of_run_release (h : heap.Sound layout) (hsettled : layout.Settled)
    (hblock : block ∈ layout.held) (hplain : heap.PlainOn words)
    (hrun : (release block.address).run heap = .ok () after) :
    after.PlainOn fun address => words address ∨ address = block.address - wordSize := by
  obtain ⟨hmem, hallocated⟩ := Layout.mem_held.1 hblock
  obtain ⟨front, rest, hblocks⟩ := List.append_of_mem hmem
  have hbounds := h.bounds hmem
  have haddress := h.address_aligned hmem
  simp only [alignment] at haddress
  have hbp : block.address % 4 = 0 := by omega
  have hpending := (h.orderly hsettled).pending_free hblocks hallocated
  obtain ⟨tagged, htag, hrelease, htagged, -⟩ := h.exists_run_release hsettled hblocks hallocated
  obtain ⟨settled, hsettle, -⟩ := htagged.run_settle hpending
  rw [hrelease, run_discard_of_ok hsettle] at hrun
  obtain ⟨-, rfl⟩ := EStateM.Result.ok.inj hrun
  have htaggedPlain := (preserves_setTags hbp).of_run hplain htag
  have hheader : tagged.PlainOn (· = block.address - wordSize) := by
    refine ⟨htaggedPlain.head, ?_, ?_⟩
    · rintro address rfl
      simp only [wordSize]
      omega
    · rintro address rfl
      have hmarked := (htagged.marked { block with allocated := false } (by simp)).header
      show (tagged.memory.tag (block.address - wordSize)).bits.toNat % 4 = 0
      rw [hmarked]
      exact bits_mod_ofSize (h.size_aligned block hmem)
  have hlisted : ∀ other ∈ front ++ rest, other.allocated = false → other.address ∈ layout.order :=
    hpending.listed
  -- the blocks that are delisted on the way were listed before, so their links are plain, too
  refine (((htaggedPlain.or hheader).or htagged.plainOn_links).run_settle hbp ?_ ?_ hsettle).mono
    fun address => .inl
  · intro prev hprev hfree
    obtain ⟨found, hfound, ⟨hflag, -⟩ | ⟨front, other, rfl, hother, -, rfl, -⟩⟩ :=
      htagged.block_before hpending.blocks_eq
    all_goals obtain rfl := Except.ok.inj (hfound.symm.trans hprev)
    · exact nomatch hflag.symm.trans hfree
    · have hmem := hlisted other (by simp) hother
      exact ⟨.inr ⟨_, hmem, .inl rfl⟩, .inr ⟨_, hmem, .inr rfl⟩⟩
  · intro next hnext hfree
    obtain ⟨hfound, ⟨hflag, -⟩ | ⟨other, rest, rfl, hother, hstart, -⟩⟩ :=
      htagged.block_after hpending.blocks_eq
    all_goals obtain rfl := Except.ok.inj (hfound.symm.trans hnext)
    · exact nomatch hflag.symm.trans hfree
    · have hmem := hlisted other (by simp) hother
      rw [hstart] at hmem
      exact ⟨.inr ⟨_, hmem, .inl rfl⟩, .inr ⟨_, hmem, .inr rfl⟩⟩

end Sound

end Heap

end BoundaryTag
