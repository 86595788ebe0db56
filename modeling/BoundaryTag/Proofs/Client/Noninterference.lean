import BoundaryTag.Proofs.Client.Outlook
import BoundaryTag.Proofs.Heap.Requests
import BoundaryTag.Provider.Bounded
import BoundaryTag.Provider.Reserved

/-!
# What a client cannot see

Where a heap starts, which bytes the provider hands out, and what is written into payloads has no
influence on anything that can be seen of the heap (`Client.seen_eq_of_agree`). The two runs are not
compared with each other: `Client.Enacts.seen_eq` says that what is seen of either of them is what
`Settings.enact` computes, which knows neither addresses nor bytes. `Client.Tracks.sights_eq` says
so of the rest of a script, by an induction over the run that carries the tracked layout, moved up
to where the heap starts.
-/

namespace BoundaryTag

open HeapM

variable {σ ε : Type} {settings : Settings} {layout : Layout} {verdict : Nat → Bool}

/-! ## The outcomes of requests -/

/-- Each request has the outcome that the verdict with its number says. -/
def Request.Obey (verdict : Nat → Bool) (requests : List Request) : Prop :=
  ∀ index request, requests[index]? = some request → request.granted = verdict index

/-- As far as both lists go, the requests in them have the same outcomes. -/
def Request.Agree (requests others : List Request) : Prop :=
  ∀ pair ∈ requests.zip others, pair.1.granted = pair.2.granted

instance (requests others : List Request) : Decidable (Request.Agree requests others) :=
  inferInstanceAs (Decidable (∀ pair ∈ requests.zip others, pair.1.granted = pair.2.granted))

theorem Request.Obey.restrict {requests later : List Request} (h : Request.Obey verdict later)
    (hkept : requests <+: later) : Request.Obey verdict requests := by
  intro index request hrequest
  obtain ⟨rest, rfl⟩ := hkept
  refine h index request ((List.getElem?_append_left ?_).trans hrequest)
  exact (List.getElem?_eq_some_iff.1 hrequest).1

/-- Two lists of requests that agree obey one verdict. -/
theorem Request.Agree.exists_verdict {requests others : List Request}
    (h : Request.Agree requests others) :
    ∃ verdict, Request.Obey verdict requests ∧ Request.Obey verdict others := by
  refine ⟨fun index => ((requests[index]?.or others[index]?).map (·.granted)).getD false,
    fun index request hrequest => ?_, fun index request hother => ?_⟩
  · dsimp only
    rw [hrequest]
    rfl
  · dsimp only
    rw [hother]
    cases hrequest : requests[index]? with
    | none => rfl
    | some found =>
        have hpair : (found, request) ∈ requests.zip others :=
          List.mem_of_getElem? (List.getElem?_zip_eq_some.2 ⟨hrequest, hother⟩)
        exact (h _ hpair).symm

/-! ## What is seen of a run -/

namespace Client

variable [Provider σ ε] [LawfulProvider σ] {region : Region (Logged σ)}
  {client next : Client (Logged σ)} {call : Call} {answer : Answer} {instruction : Instruction}
  {script : List Instruction} {past : List Answer} {origin : Nat}
  {sights : List (Except Fault Sight)} {requests : List Request}

namespace Tracks

omit [LawfulProvider σ] in
/-- A tracked client has the blocks at hand that its legal calls move. -/
theorem isAllocated_of_legal (h : client.Tracks settings region layout) (hlegal : call.Legal client)
    (address request : Nat) (hcall : call = .reallocate address request) :
    client.heap.isAllocated address = .ok true := by
  subst hcall
  obtain ⟨block, hblock, rfl⟩ := h.exists_held hlegal
  obtain ⟨hmem, hallocated⟩ := Layout.mem_held.1 hblock
  rw [h.sound.isAllocated_eq hmem, hallocated]

omit [Provider σ ε] [LawfulProvider σ] in
/-- A tracked heap needs to grow when its layout does. -/
theorem growthFor_eq (h : client.Tracks settings region layout) (request : Nat) :
    client.heap.growthFor request = layout.growthFor settings request := by
  rw [Heap.growthFor, Layout.growthFor, h.settings_eq]
  by_cases hzero : request = 0
  · rw [if_pos hzero, if_pos hzero]
  · rw [if_neg hzero, if_neg hzero]
    cases blockSizeFor? request settings.minBlock with
    | none => rfl
    | some size =>
        dsimp only
        rw [h.sound.firstFit_eq]
        cases layout.firstFit size <;> rfl

omit [LawfulProvider σ] in
/-- A call continues the record of a tracked client with the one request that it needs. -/
theorem requests_perform (h : client.Tracks settings region layout) (hlegal : call.Legal client)
    (hroom : ∀ count ∈ client.heap.growthFor call.request, client.heap.stop + count ≤ heapLimit)
    (hperform : client.perform call = .ok (answer, next)) :
    next.heap.provider.requests = client.heap.provider.requests ++
      (layout.growthFor settings call.request).toList.map fun count =>
        ⟨count, client.heap.toRegion.grants count⟩ := by
  rw [← h.growthFor_eq]
  exact Client.requests_perform h.sound.settings_valid (h.isAllocated_of_legal hlegal) hroom
    hperform

/-- One call of a script does what the script does on the layout, if its request for more memory,
should there be one, has the outcome that is given. -/
theorem step {earlier : List Answer} {granted : Bool}
    (h : client.Tracks settings region (layout.shift origin))
    (hallows : instruction.Allows (earlier.map (Answer.shift origin)) call)
    (hlegal : call.Legal client)
    (hroom : ∀ count ∈ client.heap.growthFor call.request, client.heap.stop + count ≤ heapLimit)
    (hperform : client.perform call = .ok (answer, next))
    (hgranted : ∀ count ∈ layout.growthFor settings call.request,
      client.heap.toRegion.grants count = granted) :
    answer =
        (layout.perform settings (fun _ => granted) (instruction.call earlier)).1.shift origin ∧
      next.Tracks settings region
        ((layout.perform settings (fun _ => granted) (instruction.call earlier)).2.shift origin) ∧
      next.heap.provider.requests = client.heap.provider.requests ++
        (layout.growthFor settings (instruction.call earlier).request).toList.map
          (Request.mk · granted) := by
  obtain ⟨hrequest, hsame⟩ := hallows.perform_eq settings (layout.shift origin)
    client.heap.toRegion.grants
  have hstop : layout.stop + origin = client.heap.stop := h.sound.stop_eq
  have hlog := h.requests_perform hlegal hroom hperform
  rw [Layout.growthFor_shift, hrequest] at hlog
  rw [h.growthFor_eq, Layout.growthFor_shift, hrequest, ← hstop] at hroom
  rw [hrequest] at hgranted
  have htracks := h.perform_eq hlegal hperform
  rw [hsame, Layout.perform_shift _ _ _ _ _ hroom, Layout.perform_congr hgranted] at htracks
  refine ⟨htracks.1, htracks.2, hlog.trans (congrArg _ ?_)⟩
  refine List.map_congr_left fun count hcount => ?_
  rw [hgranted count (Option.mem_toList.1 hcount)]

/-- The record of a tracked client is only continued. -/
theorem requests_kept (h : client.Tracks settings region layout)
    (hfollows : Follows origin past client script sights requests) :
    client.heap.provider.requests <+: requests := by
  induction hfollows generalizing layout with
  | done past client => exact List.prefix_refl _
  | called hallows hlegal hroom hperform _ ih =>
      have hrest := ih (h.perform_eq hlegal hperform).2
      rw [h.requests_perform hlegal hroom hperform] at hrest
      exact (List.prefix_append _ _).trans hrest
  | faulted => exact List.prefix_refl _
  | retuned inner _ ih => exact ih (h.retune _)

/-- The one request of a call has the outcome that the verdict says. -/
theorem grants_eq {opening : Request} {log : List Request}
    (h : client.Tracks settings region layout) (hlegal : call.Legal client)
    (hroom : ∀ count ∈ client.heap.growthFor call.request, client.heap.stop + count ≤ heapLimit)
    (hperform : client.perform call = .ok (answer, next))
    (hrest : Follows origin past next script sights requests)
    (hlog : client.heap.provider.requests = opening :: log)
    (hverdict : Request.Obey verdict requests.tail) :
    ∀ count ∈ layout.growthFor settings call.request,
      client.heap.toRegion.grants count = verdict log.length := by
  intro count hcount
  have hkept := (h.perform_eq hlegal hperform).2.requests_kept hrest
  rw [h.requests_perform hlegal hroom hperform, hlog, Option.mem_def.1 hcount] at hkept
  obtain ⟨rest, rfl⟩ := hkept
  exact hverdict log.length ⟨count, client.heap.toRegion.grants count⟩ (by simp)

omit [Provider σ ε] [LawfulProvider σ] in
/-- What is seen of an answer and of a tracked heap is told by the layout. -/
theorem sight_eq {opening : Request} {log : List Request}
    (h : client.Tracks settings region (layout.shift origin))
    (horigin : origin = (Heap.nextPrologue region.memory).address)
    (hlog : client.heap.provider.requests = opening :: log) (answer : Answer) :
    client.heap.sight origin (answer.shift origin) =
      .ok ⟨answer.seenFrom 0, layout.outlook log⟩ := by
  obtain rfl : client.heap.start = origin := h.start_eq.trans horigin.symm
  rw [Heap.sight, h.sound.outlook_eq h.settled, hlog, Answer.seenFrom_shift]
  rfl

/-- What is seen of a script that a tracked client follows is what is seen of the script on its
layout, and no call faults. -/
theorem sights_eq {earlier : List Answer} {opening : Request} {log : List Request}
    (h : client.Tracks settings region (layout.shift origin))
    (horigin : origin = (Heap.nextPrologue region.memory).address)
    (hlog : client.heap.provider.requests = opening :: log)
    (hpast : past = earlier.map (Answer.shift origin))
    (hfollows : Follows origin past client script sights requests)
    (hverdict : Request.Obey verdict requests.tail) :
    sights = (layout.enact settings verdict earlier log script).map .ok := by
  induction hfollows generalizing layout earlier log with
  | done past client => rfl
  | @called _ client next instruction _ call answer _ _ hallows hlegal hroom hperform hrest ih =>
      subst hpast
      have hgranted := h.grants_eq hlegal hroom hperform hrest hlog hverdict
      rw [Layout.growthFor_shift] at hgranted
      obtain ⟨hanswer, hnext, hlogNext⟩ := h.step hallows hlegal hroom hperform hgranted
      obtain ⟨⟨found, after⟩, hfound⟩ : ∃ outcome, layout.perform settings
        (fun _ => verdict log.length) (instruction.call earlier) = outcome := ⟨_, rfl⟩
      rw [hfound] at hanswer hnext
      rw [hlog, List.cons_append] at hlogNext
      have hnames : earlier.map (Answer.shift origin) ++ [answer] =
          (earlier ++ [found]).map (Answer.shift origin) := by
        rw [List.map_append, hanswer]
        rfl
      rw [hanswer, hnext.sight_eq horigin hlogNext, ih hnext hlogNext hnames hverdict]
      simp only [Layout.enact, hfound, List.map_cons]
  | faulted hallows hlegal hroom hperform =>
      obtain ⟨after, hafter, -⟩ := h.perform hlegal
      rw [hperform] at hafter
      exact nomatch hafter
  | retuned inner _ ih => exact ih (h.retune _) hlog hpast hverdict

end Tracks

variable {region : Region σ} {heap : Heap (Logged σ)} {failure : Failure}
  {seen : Except Failure (List (Except Fault Sight))}

/-- When a heap cannot be created, the settings or one of the first two requests is why. -/
theorem enact_of_create_error (hroom : region.Roomy settings)
    (hcreate : Heap.create settings (region.logged []) = .error failure heap)
    (hverdict : Request.Obey verdict heap.provider.requests) (script : List Instruction) :
    ∃ reason, failure = .refused reason ∧ settings.enact verdict script = .error reason := by
  rw [Settings.enact]
  obtain ⟨reason, hcheck, after, hstopped, -⟩ | ⟨hcheck, hgrown⟩ := Heap.create_logged_cases hroom
  · rw [hcheck]
    exact ⟨reason, (EStateM.Result.error.inj (hcreate.symm.trans hstopped)).1, rfl⟩
  rw [hcheck]
  dsimp only
  obtain ⟨after, hstopped, hlog⟩ | ⟨after, hstopped, hlog⟩ | ⟨created, hcreated, -⟩ := hgrown
  · obtain ⟨rfl, rfl⟩ := EStateM.Result.error.inj (hcreate.symm.trans hstopped)
    rw [hlog] at hverdict
    have hrefused : false = verdict 0 := hverdict 0 _ rfl
    rw [if_neg fun hgranted => Bool.false_ne_true (hrefused.trans hgranted.1)]
    exact ⟨_, rfl, rfl⟩
  · obtain ⟨rfl, rfl⟩ := EStateM.Result.error.inj (hcreate.symm.trans hstopped)
    rw [hlog] at hverdict
    have hrefused : false = verdict 1 := hverdict 1 _ rfl
    rw [if_neg fun hgranted => Bool.false_ne_true (hrefused.trans hgranted.2)]
    exact ⟨_, rfl, rfl⟩
  · exact nomatch hcreate.symm.trans hcreated

/-- The two requests of a heap that was created are on record. -/
theorem requests_of_create (hroom : region.Roomy settings)
    (hcreate : Heap.create settings (region.logged []) = .ok () heap) :
    heap.provider.requests =
      [⟨Heap.openingSize region.memory, true⟩, ⟨settings.chunkSize, true⟩] := by
  obtain ⟨reason, -, after, hstopped, -⟩ | ⟨-, ⟨after, hstopped, -⟩ | ⟨after, hstopped, -⟩ |
    ⟨created, hcreated, hlog⟩⟩ := Heap.create_logged_cases hroom
  · exact nomatch hcreate.symm.trans hstopped
  · exact nomatch hcreate.symm.trans hstopped
  · exact nomatch hcreate.symm.trans hstopped
  · obtain ⟨-, rfl⟩ := EStateM.Result.ok.inj (hcreate.symm.trans hcreated)
    exact hlog

/-- What is seen of a script on a heap that was just created is what is seen of it on a layout. -/
theorem enact_of_create (hroom : region.Roomy settings)
    (hcreate : Heap.create settings (region.logged []) = .ok () heap)
    (hfollows : Follows heap.start [] ⟨heap, []⟩ script sights requests)
    (hverdict : Request.Obey verdict requests) :
    ∃ views, settings.enact verdict script = .ok views ∧
      heap.sight heap.start .done :: sights = views.map .ok := by
  have hvalid : settings.Valid :=
    (Heap.fresh_of_create hcreate).settings_eq ▸ (Heap.fresh_of_create hcreate).sound.settings_valid
  have hlog := requests_of_create hroom hcreate
  have htracks := tracks_of_create hcreate
  rw [Layout.initial_eq_shift] at htracks
  have hkept := hverdict.restrict (htracks.requests_kept hfollows)
  rw [hlog] at hkept
  have hfirst : true = verdict 0 := hkept 0 _ rfl
  have hsecond : true = verdict 1 := hkept 1 _ rfl
  have hlater : Request.Obey (fun index => verdict (index + 1)) requests.tail :=
    fun index request hrequest => hverdict (index + 1) request (by rwa [← List.getElem?_tail])
  have hsight := htracks.sight_eq htracks.start_eq hlog .done
  have hnames : [] = ([] : List Answer).map (Answer.shift heap.start) := rfl
  have hsights := htracks.sights_eq htracks.start_eq hlog hnames hfollows hlater
  rw [Settings.enact, Settings.check_eq_ok_iff.2 hvalid]
  dsimp only
  rw [if_pos ⟨hfirst.symm, hsecond.symm⟩]
  exact ⟨_, rfl, congrArg₂ List.cons hsight hsights⟩

/-- What is seen of a client that enacts a script is told by the settings, by the script and by the
outcomes of the requests, and there is no fault in it. -/
theorem Enacts.seen_eq (h : Enacts settings region script seen requests)
    (hverdict : Request.Obey verdict requests) :
    seen = ((settings.enact verdict script).map (List.map .ok)).mapError .refused := by
  cases h with
  | stopped hroom hcreate =>
      obtain ⟨reason, rfl, henact⟩ := enact_of_create_error hroom hcreate hverdict script
      rw [henact]
      rfl
  | created hroom hcreate hfollows =>
      obtain ⟨views, henact, hviews⟩ := enact_of_create hroom hcreate hfollows hverdict
      rw [henact, hviews]
      rfl

/-- Two clients over different providers enact one script with the same settings, and their requests
for more memory are granted and refused alike. Then the same is seen of both, when the heap is
created and after every call, and neither of them faults. -/
theorem seen_eq_of_agree {τ υ : Type} [Provider τ υ] [LawfulProvider τ] {other : Region τ}
    {otherSeen : Except Failure (List (Except Fault Sight))} {otherRequests : List Request}
    (hfirst : Enacts settings region script seen requests)
    (hsecond : Enacts settings other script otherSeen otherRequests)
    (hagree : Request.Agree requests otherRequests) :
    seen = otherSeen ∧ ∃ views : Except Refusal (List Sight),
      seen = (views.map (List.map .ok)).mapError .refused := by
  obtain ⟨verdict, hverdict, hotherVerdict⟩ := hagree.exists_verdict
  have hseen := hfirst.seen_eq hverdict
  exact ⟨hseen.trans (hsecond.seen_eq hotherVerdict).symm, _, hseen⟩

/-- One heap starts at address 8 on zeros, the other one behind 13 other bytes on bytes of ones, and
the clients write different bytes to different places of the same block. -/
theorem seen_eq_of_two_sessions : ∃ seen otherSeen requests otherRequests,
    Enacts ⟨64, 32⟩ (Bounded.region 300) [.allocate 20, .allocate 24, .write 0, .release 0,
      .allocate 100, .reallocate 1 40, .allocate 1000] seen requests ∧
    Enacts ⟨64, 32⟩ (⟨⟨313⟩, (Memory.empty 0xff).extend 13⟩ : Region Reserved) [.allocate 20,
      .allocate 24, .write 0, .release 0, .allocate 100, .reallocate 1 40, .allocate 1000]
      otherSeen otherRequests ∧
    requests = [⟨16, true⟩, ⟨64, true⟩, ⟨112, true⟩, ⟨64, true⟩, ⟨1008, false⟩] ∧
    otherRequests = [⟨19, true⟩, ⟨64, true⟩, ⟨112, true⟩, ⟨64, true⟩, ⟨1008, false⟩] ∧
    Request.Agree requests otherRequests ∧
    seen = otherSeen ∧ ∃ views : Except Refusal (List Sight),
      seen = (views.map (List.map .ok)).mapError .refused := by
  have hfirst : (enact ⟨64, 32⟩ (Bounded.region 300) [(.allocate 20, .allocate 20),
      (.allocate 24, .allocate 24), (.write 0, .write 16 0 [1, 2, 3, 4]), (.release 0, .release 16),
      (.allocate 100, .allocate 100), (.reallocate 1 40, .reallocate 48 40),
      (.allocate 1000, .allocate 1000)]).map Prod.snd =
      some [⟨16, true⟩, ⟨64, true⟩, ⟨112, true⟩, ⟨64, true⟩, ⟨1008, false⟩] := by
    decide +kernel
  have hsecond : (enact ⟨64, 32⟩ (⟨⟨313⟩, (Memory.empty 0xff).extend 13⟩ : Region Reserved)
      [(.allocate 20, .allocate 20), (.allocate 24, .allocate 24), (.write 0, .write 32 3 [9]),
        (.release 0, .release 32), (.allocate 100, .allocate 100),
        (.reallocate 1 40, .reallocate 64 40), (.allocate 1000, .allocate 1000)]).map Prod.snd =
      some [⟨19, true⟩, ⟨64, true⟩, ⟨112, true⟩, ⟨64, true⟩, ⟨1008, false⟩] := by
    decide +kernel
  obtain ⟨⟨sights, requests⟩, henact, hlog⟩ := Option.map_eq_some_iff.1 hfirst
  obtain ⟨⟨others, otherRequests⟩, hother, hotherLog⟩ := Option.map_eq_some_iff.1 hsecond
  have henacts := enacts_of_enact (fun _ _ => by decide) henact
  have hotherEnacts := enacts_of_enact (fun _ _ => by decide) hother
  have hagree : Request.Agree requests otherRequests := by
    rw [show requests = _ from hlog, show otherRequests = _ from hotherLog]
    decide
  exact ⟨_, _, _, _, henacts, hotherEnacts, hlog, hotherLog, hagree,
    seen_eq_of_agree henacts hotherEnacts hagree⟩

end Client

end BoundaryTag
