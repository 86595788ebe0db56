import BoundaryTag.Heap.FreeList
import BoundaryTag.Proofs.Memory.Tags

/-!
# The free list in memory

`Memory.enlisted` and `Memory.delisted` are the memories after a block was put in front of the list
and after one was taken out of it. Read `Memory.Linked.enlisted` and `Memory.Linked.delisted`
first: the links spell the longer list and the shorter one, as long as no two blocks of the list
share a byte of their links (`Memory.Slots`). `Heap.run_enlist` and `Heap.run_delist` tie the two
memories to the operations.
-/

namespace BoundaryTag

variable {σ : Type}

namespace Memory

variable {memory other : Memory} {listed before after : List Nat} {bp : Nat}
  {previous link : Option Nat}

/-- The eight bytes of links at these addresses lie inside the memory and do not overlap, and the
addresses can be links themselves. -/
structure Slots (memory : Memory) (listed : List Nat) : Prop where
  pos : ∀ bp ∈ listed, 0 < bp
  fits : ∀ bp ∈ listed, bp < 0x1_0000_0000
  inside : ∀ bp ∈ listed, bp + 8 ≤ memory.size
  apart : listed.Pairwise fun first second => first + 8 ≤ second ∨ second + 8 ≤ first

/-- Different slots have no byte in common. -/
theorem Slots.disjoint (h : memory.Slots listed) {first second : Nat} (hfirst : first ∈ listed)
    (hsecond : second ∈ listed) (hne : first ≠ second) :
    first + 8 ≤ second ∨ second + 8 ≤ first := by
  let Apart (first second : Nat) := first + 8 ≤ second ∨ second + 8 ≤ first
  have hsymm : Std.Symm Apart := ⟨fun _ _ => Or.symm⟩
  have hpairwise : listed.Pairwise Apart := h.apart
  exact hpairwise.forall hfirst hsecond hne

theorem Slots.nodup (h : memory.Slots listed) : listed.Nodup :=
  h.apart.imp fun {first second} hapart => by omega

/-- Change the link at an address. -/
def setLink (memory : Memory) (address : Nat) (link : Option Nat) : Memory :=
  memory.setWord address (wordOfLink link)

/-- Change the link at an address, if there is one. -/
def relink (memory : Memory) (address link : Option Nat) : Memory :=
  match address with
  | none => memory
  | some address => memory.setLink address link

/-- The memory after a block was put in front of a list with this head. -/
def enlisted (memory : Memory) (head : Option Nat) (bp : Nat) : Memory :=
  ((memory.setLink bp none).setLink (bp + wordSize) head).relink head (some bp)

/-- The memory after a block was taken out of a list from between these two. -/
def delisted (memory : Memory) (previous next : Option Nat) (bp : Nat) : Memory :=
  (((memory.relink (previous.map (· + wordSize)) next).relink next previous).setLink bp
    none).setLink (bp + wordSize) none

/-! ## Single links -/

@[simp] theorem size_setLink (memory : Memory) (address : Nat) (link : Option Nat) :
    (memory.setLink address link).size = memory.size := size_setWord ..

@[simp] theorem size_relink (memory : Memory) (address link : Option Nat) :
    (memory.relink address link).size = memory.size := by
  cases address with
  | none => rfl
  | some address => exact size_setLink ..

@[simp] theorem size_enlisted (memory : Memory) (head : Option Nat) (bp : Nat) :
    (memory.enlisted head bp).size = memory.size := by
  simp [enlisted]

@[simp] theorem size_delisted (memory : Memory) (previous next : Option Nat) (bp : Nat) :
    (memory.delisted previous next bp).size = memory.size := by
  simp [delisted]

/-- A link inside the memory is read back as it was written. -/
theorem link_setLink_same {address : Nat} (hend : address + 4 ≤ memory.size)
    (hpos : ∀ bp ∈ link, 0 < bp) (hfits : ∀ bp ∈ link, bp < 0x1_0000_0000) :
    (memory.setLink address link).link address = link := by
  rw [setLink, Memory.link, word_setWord_same memory _ hend, linkOfWord_wordOfLink hpos hfits]

/-- Setting a link elsewhere does not disturb a link. -/
theorem link_setLink_of_disjoint {address elsewhere : Nat}
    (h : elsewhere + 4 ≤ address ∨ address + 4 ≤ elsewhere) :
    (memory.setLink address link).link elsewhere = memory.link elsewhere := by
  rw [setLink, Memory.link, word_setWord_of_disjoint memory _ h, Memory.link]

theorem byte_setLink_of_outside {address elsewhere : Nat}
    (h : elsewhere < address ∨ address + 4 ≤ elsewhere) :
    (memory.setLink address link).byte elsewhere = memory.byte elsewhere :=
  byte_setWord_of_outside memory _ h

theorem byte_relink_of_outside {address : Option Nat} {elsewhere : Nat}
    (h : ∀ start ∈ address, elsewhere < start ∨ start + 4 ≤ elsewhere) :
    (memory.relink address link).byte elsewhere = memory.byte elsewhere := by
  cases address with
  | none => rfl
  | some address => exact byte_setLink_of_outside (h address rfl)

theorem link_relink_of_disjoint {address : Option Nat} {elsewhere : Nat}
    (h : ∀ start ∈ address, elsewhere + 4 ≤ start ∨ start + 4 ≤ elsewhere) :
    (memory.relink address link).link elsewhere = memory.link elsewhere := by
  cases address with
  | none => rfl
  | some address => exact link_setLink_of_disjoint (h address rfl)

/-- A link depends on its four bytes only. -/
theorem link_congr {address : Nat}
    (h : ∀ inside, address ≤ inside → inside < address + 4 →
      other.byte inside = memory.byte inside) : other.link address = memory.link address := by
  rw [Memory.link, Memory.link, word_congr h]

/-! ## Lists of links -/

/-- A list may be relinked at its first block, and stays linked where no link changes. -/
theorem Linked.congr_links {previous' : Option Nat} (h : memory.Linked previous listed)
    (hfirst : ∀ bp ∈ listed.head?, other.link bp = previous')
    (hpred : ∀ bp ∈ listed.tail, other.link bp = memory.link bp)
    (hsucc : ∀ bp ∈ listed, other.link (bp + wordSize) = memory.link (bp + wordSize)) :
    other.Linked previous' listed := by
  induction listed generalizing previous previous' with
  | nil => trivial
  | cons bp listed ih =>
      obtain ⟨_, hnext, hrest⟩ := h
      refine ⟨hfirst bp rfl, (hsucc bp List.mem_cons_self).trans hnext, ih hrest ?_ ?_ ?_⟩
      · intro next hnext
        rw [hpred next (List.mem_of_mem_head? hnext)]
        cases listed with
        | nil => exact nomatch hnext
        | cons first listed =>
            cases hnext
            exact hrest.1
      · exact fun node hnode => hpred node (List.mem_of_mem_tail hnode)
      · exact fun node hnode => hsucc node (List.mem_cons_of_mem _ hnode)

/-- The links of a list are all that it depends on. -/
theorem Linked.congr (h : memory.Linked previous listed)
    (hsame : ∀ bp ∈ listed, ∀ address, bp ≤ address → address < bp + 8 →
      other.byte address = memory.byte address) : other.Linked previous listed := by
  have hpred : ∀ bp ∈ listed, other.link bp = memory.link bp := fun bp hbp =>
    link_congr fun inside hle hlt => hsame bp hbp inside hle (by omega)
  refine h.congr_links (fun bp hbp => ?_) (fun bp hbp => hpred bp (List.mem_of_mem_tail hbp))
    fun bp hbp => link_congr fun inside hle hlt => ?_
  · rw [hpred bp (List.mem_of_mem_head? hbp)]
    cases listed with
    | nil => exact nomatch hbp
    | cons first listed =>
        cases hbp
        exact h.1
  · simp only [wordSize] at hle hlt
    exact hsame bp hbp inside (by omega) (by omega)

/-- The links of a block in the middle of a list. -/
theorem Linked.middle (h : memory.Linked previous (before ++ bp :: after)) :
    memory.link bp = before.getLast?.or previous ∧
      memory.link (bp + wordSize) = after.head? := by
  induction before generalizing previous with
  | nil => exact ⟨h.1, h.2.1⟩
  | cons node before ih =>
      obtain ⟨hprevious, hnext⟩ := ih h.2.2
      refine ⟨hprevious.trans ?_, hnext⟩
      cases before with
      | nil => rfl
      | cons next before =>
          rw [List.getLast?_cons_cons, List.getLast?_cons]
          rfl

/-- A list is linked without a block in its middle once the two blocks around it are linked. -/
theorem Linked.splice (h : memory.Linked previous (before ++ bp :: after))
    (hpred : ∀ node ∈ after.head?, other.link node = before.getLast?.or previous)
    (hsucc : ∀ node ∈ before.getLast?, other.link (node + wordSize) = after.head?)
    (hbefore : ∀ node ∈ before, other.link node = memory.link node)
    (hinner : ∀ node ∈ before.dropLast,
      other.link (node + wordSize) = memory.link (node + wordSize))
    (htail : ∀ node ∈ after.tail, other.link node = memory.link node)
    (hafter : ∀ node ∈ after, other.link (node + wordSize) = memory.link (node + wordSize)) :
    other.Linked previous (before ++ after) := by
  induction before generalizing previous with
  | nil => exact h.2.2.congr_links hpred htail hafter
  | cons node before ih =>
      obtain ⟨hnode, hnext, hrest⟩ := h
      rw [List.forall_mem_cons] at hbefore
      cases before with
      | nil =>
          exact ⟨hbefore.1.trans hnode, hsucc node rfl,
            hrest.2.2.congr_links hpred htail hafter⟩
      | cons next before =>
          rw [List.getLast?_cons_cons] at hpred hsucc
          rw [List.dropLast_cons_cons, List.forall_mem_cons] at hinner
          refine ⟨hbefore.1.trans hnode, hinner.1.trans hnext,
            ih hrest (fun first hfirst => ?_) hsucc hbefore.2 hinner.2⟩
          rw [hpred first hfirst, List.getLast?_cons]
          rfl

/-! ## Putting a block in front -/

section Enlisted

variable {head : Option Nat}

/-- Enlisting a block changes its own links and one link of the old head. -/
theorem byte_enlisted_of_outside {address : Nat} (hself : address < bp ∨ bp + 8 ≤ address)
    (hhead : ∀ node ∈ head, address < node ∨ node + 4 ≤ address) :
    (memory.enlisted head bp).byte address = memory.byte address := by
  rw [enlisted, byte_relink_of_outside hhead, byte_setLink_of_outside,
    byte_setLink_of_outside (by omega)]
  simp only [wordSize]
  omega

theorem link_enlisted_self (hinside : bp + 8 ≤ memory.size)
    (hapart : ∀ node ∈ head, bp + 8 ≤ node ∨ node + 8 ≤ bp) :
    (memory.enlisted head bp).link bp = none := by
  have hnode : ∀ node ∈ head, bp + 4 ≤ node ∨ node + 4 ≤ bp := fun node hnode => by
    have := hapart node hnode
    omega
  rw [enlisted, link_relink_of_disjoint hnode, link_setLink_of_disjoint (by simp),
    link_setLink_same (by omega) (by simp) (by simp)]

theorem link_enlisted_next (hinside : bp + 8 ≤ memory.size)
    (hapart : ∀ node ∈ head, bp + 8 ≤ node ∨ node + 8 ≤ bp) (hpos : ∀ node ∈ head, 0 < node)
    (hfits : ∀ node ∈ head, node < 0x1_0000_0000) :
    (memory.enlisted head bp).link (bp + wordSize) = head := by
  have hnode : ∀ node ∈ head, bp + wordSize + 4 ≤ node ∨ node + 4 ≤ bp + wordSize :=
    fun node hnode => by
      have := hapart node hnode
      simp only [wordSize]
      omega
  rw [enlisted, link_relink_of_disjoint hnode,
    link_setLink_same (by simp only [size_setLink, wordSize]; omega) hpos hfits]

/-- The old head is linked back to the block in front of it. -/
theorem link_enlisted_head {node : Nat} (hnode : node + 8 ≤ memory.size) (hpos : 0 < bp)
    (hfits : bp < 0x1_0000_0000) : (memory.enlisted (some node) bp).link node = some bp := by
  rw [enlisted, relink,
    link_setLink_same (by simp only [size_setLink]; omega) (by simpa using hpos) (by simpa)]

/-- With a block in front, the links spell the longer list. -/
theorem Linked.enlisted (h : memory.Linked none listed) (hslots : memory.Slots (bp :: listed)) :
    (memory.enlisted listed.head? bp).Linked none (bp :: listed) := by
  obtain ⟨hpos, hfits, hinside, hpairwise⟩ := hslots
  rw [List.forall_mem_cons] at hpos hfits hinside
  obtain ⟨hapart, hlisted⟩ := List.pairwise_cons.1 hpairwise
  have hhead : ∀ node ∈ listed.head?, node ∈ listed := fun node => List.mem_of_mem_head?
  have hheadApart : ∀ node ∈ listed.head?, bp + 8 ≤ node ∨ node + 8 ≤ bp := fun node hnode =>
    hapart node (hhead node hnode)
  refine ⟨link_enlisted_self hinside.1 hheadApart,
    link_enlisted_next hinside.1 hheadApart (fun node hnode => hpos.2 node (hhead node hnode))
      fun node hnode => hfits.2 node (hhead node hnode), ?_⟩
  cases listed with
  | nil => trivial
  | cons first listed =>
      rw [List.forall_mem_cons] at hinside hapart
      obtain ⟨hfirst, -⟩ := List.pairwise_cons.1 hlisted
      refine h.congr_links (fun node hnode => ?_) (fun node hnode => ?_) fun node hnode => ?_
      · obtain rfl : first = node := Option.some.inj hnode
        exact link_enlisted_head hinside.2.1 hpos.1 hfits.1
      · have hbp := hapart.2 node hnode
        have hnodeFirst := hfirst node hnode
        refine link_congr fun inside hle hlt =>
          byte_enlisted_of_outside (by omega) fun other hother => ?_
        obtain rfl : first = other := Option.some.inj hother
        omega
      · simp only [wordSize]
        have hbp : bp + 8 ≤ node ∨ node + 8 ≤ bp := by
          rcases List.mem_cons.1 hnode with rfl | hnode
          · exact hapart.1
          · exact hapart.2 node hnode
        have hnodeFirst : first = node ∨ first + 8 ≤ node ∨ node + 8 ≤ first := by
          rcases List.mem_cons.1 hnode with rfl | hnode
          · exact .inl rfl
          · exact .inr (hfirst node hnode)
        refine link_congr fun inside hle hlt =>
          byte_enlisted_of_outside (by omega) fun other hother => ?_
        obtain rfl : first = other := Option.some.inj hother
        omega

end Enlisted

/-! ## Taking a block out -/

section Delisted

variable {next : Option Nat}

/-- Delisting a block changes its own links and one link of each of its neighbours. -/
theorem byte_delisted_of_outside {address : Nat} (hself : address < bp ∨ bp + 8 ≤ address)
    (hprevious : ∀ node ∈ previous, address < node + 4 ∨ node + 8 ≤ address)
    (hnext : ∀ node ∈ next, address < node ∨ node + 4 ≤ address) :
    (memory.delisted previous next bp).byte address = memory.byte address := by
  have hslot : ∀ start ∈ previous.map (· + wordSize), address < start ∨ start + 4 ≤ address := by
    intro start hstart
    obtain ⟨node, hnode, rfl⟩ := Option.map_eq_some_iff.1 hstart
    simpa using hprevious node hnode
  rw [delisted, byte_setLink_of_outside, byte_setLink_of_outside (by omega),
    byte_relink_of_outside hnext, byte_relink_of_outside hslot]
  simp only [wordSize]
  omega

/-- The links of a block that was taken out are empty. -/
theorem link_delisted_self (hinside : bp + 8 ≤ memory.size) :
    (memory.delisted previous next bp).link bp = none ∧
      (memory.delisted previous next bp).link (bp + wordSize) = none := by
  rw [delisted]
  refine ⟨?_, link_setLink_same (by simp; omega) (by simp) (by simp)⟩
  rw [link_setLink_of_disjoint (by simp), link_setLink_same (by simp; omega) (by simp) (by simp)]

/-- The block after the one that was taken out is linked to the block before it. -/
theorem link_delisted_next {node : Nat} (hapart : bp + 8 ≤ node ∨ node + 8 ≤ bp)
    (hnode : node + 8 ≤ memory.size) (hpos : ∀ node ∈ previous, 0 < node)
    (hfits : ∀ node ∈ previous, node < 0x1_0000_0000) :
    (memory.delisted previous (some node) bp).link node = previous := by
  rw [delisted, link_setLink_of_disjoint (by simp only [wordSize]; omega),
    link_setLink_of_disjoint (by omega), relink,
    link_setLink_same (by simp only [size_relink]; omega) hpos hfits]

/-- The block before the one that was taken out is linked to the block after it. -/
theorem link_delisted_previous {node : Nat} (hapart : bp + 8 ≤ node ∨ node + 8 ≤ bp)
    (hnode : node + 8 ≤ memory.size)
    (hnext : ∀ other ∈ next, other + 8 ≤ node ∨ node + 8 ≤ other) (hpos : ∀ node ∈ next, 0 < node)
    (hfits : ∀ node ∈ next, node < 0x1_0000_0000) :
    (memory.delisted (some node) next bp).link (node + wordSize) = next := by
  have hnext' : ∀ other ∈ next, node + wordSize + 4 ≤ other ∨ other + 4 ≤ node + wordSize :=
    fun other hother => by
      have := hnext other hother
      simp only [wordSize]
      omega
  simp only [wordSize] at hnext' ⊢
  rw [delisted, link_setLink_of_disjoint (by simp only [wordSize]; omega),
    link_setLink_of_disjoint (by omega), link_relink_of_disjoint hnext', Option.map_some, relink,
    link_setLink_same (by omega) hpos hfits]

/-- A block in the middle of a list shares no slot with the others. -/
theorem Slots.disjoint_middle (h : memory.Slots (before ++ bp :: after)) {node : Nat}
    (hnode : node ∈ before ++ after) : bp + 8 ≤ node ∨ node + 8 ≤ bp := by
  have hnodup := h.nodup
  have hne : node ≠ bp := by
    rintro rfl
    exact (List.nodup_cons.1 (List.perm_middle.nodup_iff.1 hnodup)).1 hnode
  refine h.disjoint (by simp) (List.perm_middle.mem_iff.2 (List.mem_cons_of_mem _ hnode)) hne.symm

/-- Of the remaining blocks, only the two neighbours lose a link, and each of them only one. -/
theorem Slots.byte_delisted (h : memory.Slots (before ++ bp :: after)) {node inside : Nat}
    (hnode : node ∈ before ++ after) (hle : node ≤ inside) (hlt : inside < node + 8)
    (hprevious : ∀ other ∈ before.getLast?, other = node → inside < node + 4)
    (hnext : ∀ other ∈ after.head?, other = node → node + 4 ≤ inside) :
    (memory.delisted before.getLast? after.head? bp).byte inside = memory.byte inside := by
  have hkept : ∀ other ∈ before ++ after, other ∈ before ++ bp :: after := fun other hother =>
    List.perm_middle.mem_iff.2 (List.mem_cons_of_mem _ hother)
  have hbp := h.disjoint_middle hnode
  refine byte_delisted_of_outside (by omega) (fun other hother => ?_) fun other hother => ?_
  · have hmem := hkept other (List.mem_append_left _ (List.mem_of_mem_getLast? hother))
    by_cases heq : other = node
    · have := hprevious other hother heq
      omega
    · have := h.disjoint hmem (hkept node hnode) heq
      omega
  · have hmem := hkept other (List.mem_append_right _ (List.mem_of_mem_head? hother))
    by_cases heq : other = node
    · have := hnext other hother heq
      omega
    · have := h.disjoint hmem (hkept node hnode) heq
      omega

/-- Without a block, the links spell the shorter list. -/
theorem Linked.delisted (h : memory.Linked none (before ++ bp :: after))
    (hslots : memory.Slots (before ++ bp :: after)) :
    (memory.delisted before.getLast? after.head? bp).Linked none (before ++ after) := by
  have hlast : ∀ node ∈ before.getLast?, node ∈ before := fun node => List.mem_of_mem_getLast?
  have hhead : ∀ node ∈ after.head?, node ∈ after := fun node => List.mem_of_mem_head?
  have hnodup := hslots.nodup
  simp only [List.nodup_append, List.nodup_cons, List.mem_cons] at hnodup
  obtain ⟨hbefore, ⟨-, hafter⟩, hapart⟩ := hnodup
  have hmemBefore : ∀ node ∈ before, node ∈ before ++ bp :: after := by simp +contextual
  have hmemAfter : ∀ node ∈ after, node ∈ before ++ bp :: after := by simp +contextual
  refine h.splice ?_ ?_ ?_ ?_ ?_ ?_
  -- the two links that change
  · intro node hnode
    have hmem := hhead node hnode
    rw [hnode, Option.or_none]
    exact link_delisted_next (hslots.disjoint_middle (List.mem_append_right _ hmem))
      (hslots.inside node (hmemAfter node hmem))
      (fun other hother => hslots.pos other (hmemBefore other (hlast other hother)))
      fun other hother => hslots.fits other (hmemBefore other (hlast other hother))
  · intro node hnode
    have hmem := hlast node hnode
    rw [hnode]
    exact link_delisted_previous (hslots.disjoint_middle (List.mem_append_left _ hmem))
      (hslots.inside node (hmemBefore node hmem))
      (fun other hother => hslots.disjoint (hmemAfter other (hhead other hother))
        (hmemBefore node hmem) (hapart node hmem other (.inr (hhead other hother))).symm)
      (fun other hother => hslots.pos other (hmemAfter other (hhead other hother)))
      fun other hother => hslots.fits other (hmemAfter other (hhead other hother))
  -- the links that stay
  · intro node hnode
    refine link_congr fun inside hle hlt => hslots.byte_delisted (List.mem_append_left _ hnode) hle
      (by omega) (fun _ _ _ => hlt) fun other hother heq => ?_
    exact absurd heq.symm (hapart node hnode other (.inr (hhead other hother)))
  · intro node hnode
    have hmem := List.dropLast_subset _ hnode
    simp only [wordSize]
    refine link_congr fun inside hle hlt => hslots.byte_delisted (List.mem_append_left _ hmem)
      (by omega) (by omega) (fun other hother heq => ?_) fun _ _ _ => hle
    rw [← List.dropLast_append_getLast? other hother, List.nodup_append] at hbefore
    exact absurd heq.symm (hbefore.2.2 node hnode other List.mem_cons_self)
  · intro node hnode
    refine link_congr fun inside hle hlt => hslots.byte_delisted
      (List.mem_append_right _ (List.mem_of_mem_tail hnode)) hle (by omega)
      (fun _ _ _ => hlt) fun other hother heq => ?_
    rw [← List.cons_head?_tail hother, List.nodup_cons] at hafter
    exact absurd (heq ▸ hnode) hafter.1
  · intro node hnode
    simp only [wordSize]
    refine link_congr fun inside hle hlt => hslots.byte_delisted (List.mem_append_right _ hnode)
      (by omega) (by omega) (fun other hother heq => ?_) fun _ _ _ => hle
    exact absurd heq (hapart other (hlast other hother) node (.inr hnode))

end Delisted

end Memory

end BoundaryTag
