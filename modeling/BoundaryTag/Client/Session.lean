import BoundaryTag.Client

/-!
# Sessions

A session creates a heap and makes a list of calls on it. Legality is decidable, so a session is
computed, and `Client.run_of_session` says that what it computes is a run.
-/

namespace BoundaryTag

variable {σ ε : Type}

/-- Whether a call is legal can be read off the record of the client. -/
instance Call.decidableLegal (client : Client σ) : (call : Call) → Decidable (call.Legal client)
  | .allocate _ => .isTrue trivial
  | .release address => inferInstanceAs (Decidable (address ∈ client.live))
  | .reallocate address _ => inferInstanceAs (Decidable (address ∈ client.live))
  | .write address offset bytes => inferInstanceAs (Decidable (∃ holding ∈ client.holdings,
      holding.address = address ∧ offset + bytes.length ≤ holding.contents.length))

namespace Client

variable [Provider σ ε]

/-- Make these calls one after the other. There is no outcome when one of them is not legal, or
faults. -/
def play (client : Client σ) : List Call → Option (List Turn × Client σ)
  | [] => some ([], client)
  | call :: calls =>
      if call.Legal client then do
        let (answer, next) ← (client.perform call).toOption
        let (turns, last) ← next.play calls
        return (⟨call, client.heap.toRegion.grants, answer⟩ :: turns, last)
      else none

/-- Create a heap and make these calls on it. -/
def session (settings : Settings) (region : Region σ) (calls : List Call) :
    Option (Heap σ × List Turn × Client σ) :=
  match Heap.create settings region with
  | .ok () heap => (play ⟨heap, []⟩ calls).map (heap, ·)
  | .error _ _ => none

variable {settings : Settings} {region : Region σ} {client last : Client σ} {heap : Heap σ}
  {calls : List Call} {turns : List Turn}

/-- Calls that were made one after the other are a run. -/
theorem run_of_play (hplay : client.play calls = some (turns, last)) : Run client turns last := by
  induction calls generalizing client turns with
  | nil =>
      obtain ⟨rfl, rfl⟩ := Prod.mk.inj (Option.some.inj hplay)
      exact .done client
  | cons call calls ih =>
      rw [play] at hplay
      split at hplay
      next hlegal =>
        simp only [Option.bind_eq_bind, Option.bind_eq_some_iff] at hplay
        obtain ⟨⟨answer, next⟩, houtcome, ⟨rest, after⟩, hrest, hplay⟩ := hplay
        obtain ⟨rfl, rfl⟩ := Prod.mk.inj (Option.some.inj hplay)
        cases hperform : client.perform call with
        | error cause =>
            rw [hperform] at houtcome
            cases houtcome
        | ok outcome =>
            rw [hperform] at houtcome
            obtain rfl : outcome = (answer, next) := Option.some.inj houtcome
            exact .called hlegal hperform (ih hrest)
      next => cases hplay

/-- A session creates a heap, and leads from it to a client by legal calls. -/
theorem run_of_session (hsession : session settings region calls = some (heap, turns, client)) :
    Heap.create settings region = .ok () heap ∧ Run ⟨heap, []⟩ turns client := by
  rw [session] at hsession
  cases hcreate : Heap.create settings region with
  | error failure stopped =>
      rw [hcreate] at hsession
      cases hsession
  | ok _ created =>
      rw [hcreate] at hsession
      obtain ⟨outcome, hplay, hsame⟩ := Option.map_eq_some_iff.1 hsession
      obtain ⟨rfl, rfl⟩ := Prod.mk.inj hsame
      exact ⟨rfl, run_of_play hplay⟩

/-- Whatever is seen of a session is seen of a run. -/
theorem exists_of_session {α : Type} {view : Heap σ × List Turn × Client σ → α} {seen : α}
    (hseen : (session settings region calls).map view = some seen) :
    ∃ heap turns client, Heap.create settings region = .ok () heap ∧
      Run ⟨heap, []⟩ turns client ∧ view (heap, turns, client) = seen := by
  obtain ⟨⟨heap, turns, client⟩, hsession, hview⟩ := Option.map_eq_some_iff.1 hseen
  obtain ⟨hcreate, hrun⟩ := run_of_session hsession
  exact ⟨heap, turns, client, hcreate, hrun, hview⟩

/-- Whatever is seen of a session and of one more call is seen of a client that can be reached, and
of this call of it. -/
theorem exists_of_session_call {α β : Type} (look : Client σ → α) (view : Client σ → β)
    {call : Call} {answer : Answer} {looked : α} {viewed : β}
    (hseen : (session settings region calls).map (fun outcome =>
      (look outcome.2.2, (outcome.2.2.perform call).toOption.map fun found =>
        (found.1, view found.2))) = some (looked, some (answer, viewed))) :
    ∃ client next, Reachable settings region client ∧ look client = looked ∧
      client.perform call = .ok (answer, next) ∧ view next = viewed := by
  obtain ⟨heap, turns, client, hcreate, hrun, hview⟩ := exists_of_session hseen
  obtain ⟨hlook, hcall⟩ := Prod.mk.inj hview
  cases hperform : client.perform call with
  | error cause =>
      rw [hperform] at hcall
      exact nomatch hcall
  | ok found =>
      obtain ⟨given, next⟩ := found
      rw [hperform] at hcall
      obtain ⟨rfl, hnext⟩ := Prod.mk.inj (Option.some.inj hcall)
      exact ⟨client, next, ⟨heap, turns, hcreate, hrun⟩, hlook, hperform, hnext⟩

end Client

end BoundaryTag
