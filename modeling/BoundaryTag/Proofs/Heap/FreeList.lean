import BoundaryTag.Heap.Allocation
import BoundaryTag.Proofs.Memory.Links

/-!
# The free list of a heap

`Heap.Lists` says that the links in memory and what the heap remembers of its free list spell a list
of blocks. Enlisting and delisting act on it as they do on a list (`Heap.Lists.run_enlist` and
`Heap.Lists.run_delist`), and following the links yields its elements in order
(`Heap.Lists.follow_eq` and `Heap.Lists.firstFitFrom_eq`). Nothing here asks what else the heap
holds; `Heap.Edits` says which bytes an action leaves alone.
-/

namespace BoundaryTag

open HeapM

variable {σ α : Type}

namespace Heap

/-- An action that led from one heap to another without asking for memory changed bytes at these
addresses only. -/
structure Edits (before after : Heap σ) (changed : Nat → Prop) : Prop where
  provider_eq : after.provider = before.provider
  start_eq : after.start = before.start
  settings_eq : after.settings = before.settings
  size_eq : after.memory.size = before.memory.size
  byte_eq : ∀ address, ¬ changed address →
    after.memory.byte address = before.memory.byte address

/-- The links in memory, the head and the count spell this list. -/
structure Lists (heap : Heap σ) (order : List Nat) : Prop where
  linked : heap.memory.Linked none order
  head_eq : heap.free.head = order.head?
  count_eq : heap.free.count = order.length

namespace Edits

variable {first second third : Heap σ} {changed changed' : Nat → Prop}

theorem refl (heap : Heap σ) (changed : Nat → Prop) : heap.Edits heap changed :=
  ⟨rfl, rfl, rfl, rfl, fun _ _ => rfl⟩

theorem trans (h : first.Edits second changed) (h' : second.Edits third changed) :
    first.Edits third changed where
  provider_eq := h'.provider_eq.trans h.provider_eq
  start_eq := h'.start_eq.trans h.start_eq
  settings_eq := h'.settings_eq.trans h.settings_eq
  size_eq := h'.size_eq.trans h.size_eq
  byte_eq address haddress := (h'.byte_eq address haddress).trans (h.byte_eq address haddress)

theorem mono (h : first.Edits second changed)
    (himp : ∀ address, changed address → changed' address) : first.Edits second changed' :=
  { h with byte_eq := fun address haddress =>
      h.byte_eq address fun hchanged => haddress (himp address hchanged) }

/-- Other bytes in a memory of the same size are an edit. -/
theorem withMemory (heap : Heap σ) {memory : Memory} (hsize : memory.size = heap.memory.size)
    (hbytes : ∀ address, ¬ changed address → memory.byte address = heap.memory.byte address) :
    heap.Edits (heap.withMemory memory) changed :=
  ⟨rfl, rfl, rfl, hsize, hbytes⟩

end Edits

variable {heap : Heap σ} {order before after : List Nat} {bp : Nat}

/-! ## The links of a block -/

/-- The link of a block inside the memory to the one before it can be read. -/
theorem predecessor_of_le (h : bp + 8 ≤ heap.memory.size) :
    heap.predecessor bp = .ok (heap.memory.link bp) :=
  linkAt_of_le (by omega)

/-- The link of a block inside the memory to the one after it can be read. -/
theorem successor_of_le (h : bp + 8 ≤ heap.memory.size) :
    heap.successor bp = .ok (heap.memory.link (bp + wordSize)) := linkAt_of_le h

/-! ## The two operations -/

/-- Enlisting writes three links. -/
theorem run_enlist (hbp : bp + 8 ≤ heap.memory.size)
    (hhead : ∀ node ∈ heap.free.head, node + 8 ≤ heap.memory.size) :
    (enlist bp).run heap =
      .ok ()
        { heap with
          memory := heap.memory.enlisted heap.free.head bp
          free := ⟨some bp, heap.free.count + 1⟩ } := by
  rw [enlist, run_bind_of_ok (run_get heap)]
  dsimp only
  rw [setPredecessor, run_bind_of_ok (run_setLinkAt (by omega)), setSuccessor,
    run_bind_of_ok (run_setLinkAt (by simp; omega))]
  cases hold : heap.free.head with
  | none => rfl
  | some old =>
      have hnode := hhead old hold
      show EStateM.run (setLinkAt old (some bp) >>= _) _ = _
      rw [run_bind_of_ok (run_setLinkAt (by simp; omega))]
      rfl

/-- The last part of delisting clears the links of the block and lowers the count. -/
theorem run_clearLinks (hbp : bp + 8 ≤ heap.memory.size) (hcount : 1 ≤ heap.free.count) :
    (do
      setPredecessor bp none
      setSuccessor bp none
      let count ← observe fun heap => Address.sub heap.free.count 1
      modify ({ · with free.count := count }) : HeapM σ Unit).run heap =
      .ok ()
        { heap with
          memory := (heap.memory.setLink bp none).setLink (bp + wordSize) none
          free := ⟨heap.free.head, heap.free.count - 1⟩ } := by
  rw [setPredecessor, run_bind_of_ok (run_setLinkAt (by omega)), setSuccessor,
    run_bind_of_ok (run_setLinkAt (by simp; omega)),
    run_bind_of_ok (run_observe_of_ok (Address.sub_of_le hcount))]
  rfl

/-- Delisting writes the links of the neighbours, as far as there are any, and the block's own. -/
theorem run_delist {previous next : Option Nat} (hbp : bp + 8 ≤ heap.memory.size)
    (hprevious : heap.memory.link bp = previous) (hnext : heap.memory.link (bp + wordSize) = next)
    (hpreviousInside : ∀ node ∈ previous, node + 8 ≤ heap.memory.size)
    (hnextInside : ∀ node ∈ next, node + 8 ≤ heap.memory.size)
    (hhead : previous = none → heap.free.head = some bp) (hcount : 1 ≤ heap.free.count) :
    (delist bp).run heap =
      .ok ()
        { heap with
          memory := heap.memory.delisted previous next bp
          free := ⟨if previous = none then next else heap.free.head, heap.free.count - 1⟩ } := by
  have hpredecessor : heap.predecessor bp = .ok previous := by
    rw [predecessor_of_le hbp, hprevious]
  have hsuccessor : heap.successor bp = .ok next := by
    rw [successor_of_le hbp, hnext]
  rw [delist, run_bind_of_ok (run_observe_of_ok hpredecessor),
    run_bind_of_ok (run_observe_of_ok hsuccessor)]
  cases previous with
  | none =>
      dsimp only
      rw [run_bind_of_ok (run_get heap), if_neg (by simp [hhead]), run_bind_of_ok (run_modify _ _)]
      cases next with
      | none => exact run_clearLinks hbp hcount
      | some after =>
          have hafter := hnextInside after rfl
          show EStateM.run (setLinkAt after none >>= _) _ = _
          rw [run_bind_of_ok (run_setLinkAt ?_)]
          · exact run_clearLinks (by simpa) hcount
          · show after + 4 ≤ heap.memory.size
            omega
  | some before =>
      have hbefore := hpreviousInside before rfl
      show EStateM.run (setLinkAt (before + wordSize) next >>= _) _ = _
      rw [run_bind_of_ok (run_setLinkAt (by simp; omega))]
      cases next with
      | none => exact run_clearLinks (by simpa) hcount
      | some after =>
          have hafter := hnextInside after rfl
          show EStateM.run (setLinkAt after (some before) >>= _) _ = _
          rw [run_bind_of_ok (run_setLinkAt (by simp; omega))]
          exact run_clearLinks (by simpa) hcount

/-! ## What the operations do to the list -/

/-- Whether an address lies in the links of one of these blocks. -/
def InSlots (listed : List Nat) (address : Nat) : Prop :=
  ∃ bp ∈ listed, bp ≤ address ∧ address < bp + 8

namespace Lists

/-- The block that is enlisted becomes the first one of the list. -/
theorem run_enlist (h : heap.Lists order) (hslots : heap.memory.Slots (bp :: order)) :
    ∃ after, (enlist bp).run heap = .ok () after ∧ after.Lists (bp :: order) ∧
      heap.Edits after (InSlots (bp :: order.head?.toList)) := by
  have hinside := hslots.inside
  have hhead : ∀ node ∈ order.head?, node + 8 ≤ heap.memory.size := fun node hnode =>
    hinside node (List.mem_cons_of_mem _ (List.mem_of_mem_head? hnode))
  refine ⟨_, Heap.run_enlist (hinside bp List.mem_cons_self) (h.head_eq ▸ hhead), ⟨?_, ?_, ?_⟩,
    ⟨rfl, rfl, rfl, Memory.size_enlisted .., fun address houtside => ?_⟩⟩
  · rw [h.head_eq]
    exact h.linked.enlisted hslots
  · rfl
  · simp [h.count_eq]
  · simp only [InSlots, List.mem_cons, Option.mem_toList, not_exists, not_and] at houtside
    have hbp := houtside bp (.inl rfl)
    refine Memory.byte_enlisted_of_outside (by omega) fun node hnode => ?_
    rw [h.head_eq] at hnode
    have hnode := houtside node (.inr hnode)
    omega

/-- A listed block can be taken out, and the links to be changed are found where the list has it. -/
theorem run_delist_eq (h : heap.Lists (before ++ bp :: after))
    (hslots : heap.memory.Slots (before ++ bp :: after)) :
    (delist bp).run heap =
      .ok ()
        { heap with
          memory := heap.memory.delisted before.getLast? after.head? bp
          free := ⟨if before.getLast? = none then after.head? else heap.free.head,
            heap.free.count - 1⟩ } := by
  have hinside := hslots.inside
  have hlast : ∀ node ∈ before.getLast?, node ∈ before ++ bp :: after := fun node hnode =>
    List.mem_append_left _ (List.mem_of_mem_getLast? hnode)
  have hfirst : ∀ node ∈ after.head?, node ∈ before ++ bp :: after := fun node hnode =>
    List.mem_append_right _ (List.mem_cons_of_mem _ (List.mem_of_mem_head? hnode))
  obtain ⟨hprevious, hnext⟩ := h.linked.middle
  rw [Option.or_none] at hprevious
  refine Heap.run_delist (hinside bp (by simp)) hprevious hnext
    (fun node hnode => hinside node (hlast node hnode))
    (fun node hnode => hinside node (hfirst node hnode)) (fun hnone => ?_) ?_
  · rw [h.head_eq, List.getLast?_eq_none_iff.1 hnone]
    rfl
  · rw [h.count_eq, List.length_append, List.length_cons]
    omega

/-- The block that is delisted leaves the list, wherever it is. -/
theorem run_delist (h : heap.Lists (before ++ bp :: after))
    (hslots : heap.memory.Slots (before ++ bp :: after)) :
    ∃ heap', (delist bp).run heap = .ok () heap' ∧ heap'.Lists (before ++ after) ∧
      heap.Edits heap' (InSlots (bp :: before.getLast?.toList ++ after.head?.toList)) := by
  refine ⟨_, h.run_delist_eq hslots, ⟨?_, ?_, ?_⟩,
    ⟨rfl, rfl, rfl, Memory.size_delisted .., fun address houtside => ?_⟩⟩
  · exact h.linked.delisted hslots
  · show (if before.getLast? = none then after.head? else heap.free.head) = _
    rw [h.head_eq]
    cases before with
    | nil => rfl
    | cons first before => simp
  · simp [h.count_eq]
  · simp only [InSlots, List.mem_append, List.mem_cons, Option.mem_toList, not_exists,
      not_and] at houtside
    have hbp := houtside bp (.inl (.inl rfl))
    refine Memory.byte_delisted_of_outside (by omega) (fun node hnode => ?_) fun node hnode => ?_
    · have := houtside node (.inl (.inr hnode))
      omega
    · have := houtside node (.inr hnode)
      omega

end Lists

/-! ## Following the list -/

/-- Following linked blocks finds, one after the other, what there is to be seen at them. -/
theorem follow_eq {look : Nat → Except Fault α} {value : Nat → α} {previous : Option Nat}
    {limit : Nat} (h : heap.memory.Linked previous order)
    (hinside : ∀ bp ∈ order, bp + 8 ≤ heap.memory.size)
    (hlook : ∀ bp ∈ order, look bp = .ok (value bp)) (hlimit : order.length ≤ limit) :
    heap.follow look limit order.head? = .ok (order.map value) := by
  induction order generalizing previous limit with
  | nil => cases limit <;> rfl
  | cons bp order ih =>
      rw [List.forall_mem_cons] at hinside hlook
      obtain ⟨_, hnext, hrest⟩ := h
      obtain ⟨limit, rfl⟩ : ∃ rest, limit = rest + 1 := ⟨limit - 1, by simp at hlimit; omega⟩
      have hsuccessor : heap.successor bp = .ok order.head? := by
        rw [successor_of_le hinside.1, hnext]
      have hfollow := ih hrest hinside.2 hlook.2 (by simpa using hlimit)
      show (heap.successor bp >>= _) = _
      rw [hsuccessor]
      show (look bp >>= _) = _
      rw [hlook.1]
      show (heap.follow look limit order.head? >>= _) = _
      rw [hfollow]
      rfl

/-- Among linked blocks, the first one of sufficient size is found. -/
theorem firstFitFrom_eq {size limit : Nat} {sizeOf : Nat → Nat} {previous : Option Nat}
    (h : heap.memory.Linked previous order)
    (hinside : ∀ bp ∈ order, bp + 8 ≤ heap.memory.size)
    (hsize : ∀ bp ∈ order, heap.blockSize bp = .ok (sizeOf bp)) (hlimit : order.length ≤ limit) :
    heap.firstFitFrom size limit order.head? = .ok (order.find? fun bp => size ≤ sizeOf bp) := by
  induction order generalizing previous limit with
  | nil => cases limit <;> rfl
  | cons bp order ih =>
      rw [List.forall_mem_cons] at hinside hsize
      obtain ⟨_, hnext, hrest⟩ := h
      obtain ⟨limit, rfl⟩ : ∃ rest, limit = rest + 1 := ⟨limit - 1, by simp at hlimit; omega⟩
      have hsuccessor : heap.successor bp = .ok order.head? := by
        rw [successor_of_le hinside.1, hnext]
      have hrestFit := ih hrest hinside.2 hsize.2 (by simpa using hlimit)
      show (heap.successor bp >>= _) = _
      rw [hsuccessor]
      show (heap.blockSize bp >>= _) = _
      rw [hsize.1]
      show (if sizeOf bp ≥ size then _ else _) = _
      by_cases hfits : size ≤ sizeOf bp
      · rw [if_pos hfits, List.find?_cons_of_pos (by simpa)]
        rfl
      · rw [if_neg hfits, List.find?_cons_of_neg (by simpa using hfits)]
        exact hrestFit

end Heap

end BoundaryTag
