import Sink.Gateway.Settlement
import Sink.Gateway.Streams

/-!
# Retryable mutations were not executed

Gateway, transport and Engine together. The Gateway marks a failed mutation
retryable only if the reply says that nothing was started. Such a reply is
made by the Gateway before anything is sent, or comes from an Engine that
rejected the request before it called its service; the transport can lose
and truncate replies but cannot make one up.

For streamed replies this rests on the size frame: a response is decoded only
when all of its bytes have arrived.
-/

namespace Sink.Gateway

open Grouping Interact List Option

/-! ## The transport -/

/-- One Engine at the other end of a line. `called` is whether the service was
called for a request, which cannot be seen from an error: the request may have
been lost on the way, refused before `Forward`, or carried out. -/
structure Link (s : Server) (line : Line) where
  engine : Engine
  called : ForwardRequest → Bool
  decode : s.managed = true → ∀ req,
    s.unmarshal (engine.marshal (engine.forward req)) = some (engine.forward req)
  /-- `client.Forward` fails or returns the Engine's reply. -/
  unary : ∀ req reply, line.unary req = .ok reply →
    reply = engine.forward req ∧ called req = engine.calls req
  /-- A stream delivers some of the Engine's frames and then ends in any way. -/
  stream : ∀ req received, line.stream req = .ok received → received.frames ≠ [] →
    received.frames <+: engine.frames (engine.forward req) ∧ called req = engine.calls req

/-! ## Streams -/

theorem data_of_chunks (n : Nat) (bytes : List UInt8) {frames : List Frame}
    (h : frames <+: Engine.chunks n bytes) : frames.flatMap Frame.data <+: bytes := by
  induction n generalizing bytes frames with
  | zero =>
    rw [Engine.chunks, prefix_nil] at h
    subst h
    exact nil_prefix
  | succ n ih =>
    cases frames with
    | nil => exact nil_prefix
    | cons frame frames =>
      cases bytes with
      | nil => simp [Engine.chunks] at h
      | cons b bytes =>
        obtain ⟨rfl, hrest⟩ := cons_prefix_cons.mp h
        have hdrop := ih _ hrest
        have hsplit := take_append_drop frameBytes (b :: bytes)
        conv => rhs; rw [← hsplit]
        exact (prefix_append_right_inj _).mpr hdrop

namespace Server

variable {s : Server}

theorem receive_ok {e : Engine} {response : ForwardResponse} {output : Option Status}
    {received : Stream} {encoded : List UInt8} (h : s.receive output received = .ok encoded)
    (hframes : received.frames ≠ [] → received.frames <+: e.frames response) :
    received.frames ≠ [] ∧ encoded = e.marshal response := by
  unfold receive at h
  split at h
  · cases h
  rename_i header frames hreceived
  have hne : received.frames ≠ [] := by simp [hreceived]
  refine ⟨hne, ?_⟩
  have hstarts := hframes hne
  rw [hreceived, Engine.frames, cons_prefix_cons] at hstarts
  obtain ⟨rfl, hrest⟩ := hstarts
  repeat' split at h
  all_goals try cases h
  rename_i hdata
  obtain ⟨-, rfl, hsize⟩ := (readData_iff (Nat.zero_le _)).mp hdata
  exact (data_of_chunks _ _ hrest).eq_of_length_le (Nat.le_of_eq hsize.symm)

/-! ## Replies that say nothing was started -/

/-- The request that leaves the Gateway, if one does. -/
def sent (s : Server) (line : Line) (route : Route) (req : ForwardRequest) :
    Option ForwardRequest :=
  match s.dispatch line route with
  | .error _ => none
  | .ok route =>
    if s.managed && line.scratch.isSome then none
    else some { req with version := version, store := route.store }

variable {reply : ForwardResponse}

theorem forwardStream_ok {line : Line} (link : Link s line) (hmanaged : s.managed = true)
    {sub : ForwardRequest} (h : s.forwardStream line sub = .ok reply) :
    line.scratch.isSome ∨ reply = link.engine.forward sub ∧
      link.called sub = link.engine.calls sub := by
  unfold forwardStream at h
  split at h
  · rename_i hscratch
    exact .inl (by simp [hscratch])
  refine .inr ?_
  obtain ⟨received, hstream, h⟩ := bind_ok h
  obtain ⟨encoded, hencoded, h⟩ := bind_ok h
  obtain ⟨hne, rfl⟩ := receive_ok hencoded fun hne => (link.stream sub received hstream hne).1
  rw [link.decode hmanaged] at h
  exact ⟨(Except.ok.inj h).symm, (link.stream sub received hstream hne).2⟩

theorem notStarted_right {line : Line} (link : Link s line) {route : Route} {req : ForwardRequest}
    (h : s.forward line route req = .ok reply) (hnot : reply.notStarted = true) :
    ∀ sub, s.sent line route req = some sub →
      (∃ err, link.engine.accept sub = .error err) ∧ link.called sub = false := by
  intro sub hsent
  unfold forward at h
  unfold sent at hsent
  split at h
  · rename_i hdispatch
    simp [hdispatch] at hsent
  rename_i route' hdispatch
  simp only [hdispatch] at hsent h
  split at hsent
  · cases hsent
  rename_i hscratch
  cases hsent
  obtain ⟨response, hresponse, h⟩ := bind_ok h
  obtain ⟨rfl, -⟩ := checkReply_ok h
  have hreply : reply = link.engine.forward { req with version, store := route'.store } ∧
      link.called { req with version, store := route'.store } =
        link.engine.calls { req with version, store := route'.store } := by
    cases hmanaged : s.managed with
    | true =>
      rw [hmanaged, if_pos rfl] at hresponse
      rcases forwardStream_ok link hmanaged hresponse with hsome | hreply
      · simp [hmanaged, hsome] at hscratch
      · exact hreply
    | false =>
      rw [hmanaged] at hresponse
      exact link.unary _ _ hresponse
  rw [hreply.1, Engine.forward_notStarted] at hnot
  have hcalls := (Bool.not_eq_true' _).mp hnot
  exact ⟨Engine.accept_error hcalls, hreply.2.trans hcalls⟩

/-- The Gateway marks a failed mutation retryable only if nothing was started. -/
theorem notStarted_of_retryable {σ : Shape} (hσ : σ ≠ .read) {err : Status} {notStarted : Bool}
    (h : (recordFailure σ err notStarted).retryable = true) : notStarted = true := by
  cases notStarted with
  | true => rfl
  | false =>
    have hfalse : (recordFailure σ err false).retryable = false := by
      simp [recordFailure, failure, hσ]
    rw [hfalse] at h
    cases h

theorem settled_answer {w req groups k t} (ht : (s.settlements w req groups)[k]? = some t) :
    t.answer = s.forward (w.line k) t.group.key (subRequest req t.group t.grant) := by
  have hgroup : groups[k]? = some t.group := by
    have hmap := congrArg (fun l => l[k]?) (settlements_groups s w req groups)
    simpa [ht] using hmap.symm
  obtain ⟨grant, hrun⟩ := settlements_getElem s w req hgroup
  rw [ht] at hrun
  rw [some.inj hrun]
  rfl

/-- A failure that the Gateway made for an operation of a sub-request. -/
theorem retryable_of_made {w req response} (h : s.records w req = .ok response) {t : Settlement}
    (ht : t ∈ s.settlements w req.request (s.plan w req.request.addresses).groups)
    (hmade : ∀ results, ¬t.Replied req.request.shape results) {i : Nat}
    (hi : i ∈ t.group.members) {r : req.request.shape.Result}
    (hr : response[i]? = some (some r)) {f : Failure} (hf : getFailure r = some f) :
    ∃ err, f.retryable = (recordFailure req.request.shape err t.notStarted).retryable := by
  obtain ⟨err, -, hfailed⟩ := records_not_replied h ht hmade
  refine ⟨err, ?_⟩
  cases some.inj (hr.symm.trans (hfailed i hi))
  rw [boundFailure, getFailure_mapFailure, getFailure_failedResult] at hf
  rw [← some.inj hf]

/-- If the Gateway makes a retryable failure for a mutation, then no request with it
was sent, or the Engine rejected it before calling its service; and the failures
it makes for mutations whose service was called are not retryable. -/
theorem retryable_not_executed (s : Server) (w : World) (links : ∀ k, Link s (w.line k))
    (req : Incoming) (hmutation : req.request.shape ≠ .read)
    (response : List (Option req.request.shape.Result)) (h : s.records w req = .ok response)
    (i : Nat) (r : req.request.shape.Result) (f : Failure)
    (hr : response[i]? = some (some r)) (hf : getFailure r = some f)
    (hmade : ∀ t ∈ s.settlements w req.request (s.plan w req.request.addresses).groups,
      i ∈ t.group.members → ∀ results, ¬t.Replied req.request.shape results) :
    let settled := s.settlements w req.request (s.plan w req.request.addresses).groups
    let sentAt (k : Nat) (t : Settlement) :=
      s.sent (w.line k) t.group.key (subRequest req.request t.group t.grant)
    (f.retryable = true → ∀ (k : Nat) (t : Settlement), settled[k]? = some t →
      i ∈ t.group.members → sentAt k t = none ∨ ∃ sub, sentAt k t = some sub ∧
        (∃ err, (links k).engine.accept sub = .error err) ∧ (links k).called sub = false) ∧
    (∀ (k : Nat) (t : Settlement) (sub : ForwardRequest), settled[k]? = some t →
      i ∈ t.group.members → sentAt k t = some sub → (links k).called sub = true →
        f.retryable = false) ∧
    -- the requests with the operation are those of the groups it is in
    (∀ (k : Nat) (t : Settlement), settled[k]? = some t → ∃ part,
      subRequest req.request t.group t.grant = ⟨0, [], some t.grant, some part⟩ ∧
        Request.Part t.group.members req.request part) := by
  intro settled sentAt
  -- a retryable failure comes from a reply that says nothing was started
  have hright : f.retryable = true → ∀ (k : Nat) (t : Settlement), settled[k]? = some t →
      i ∈ t.group.members → ∀ sub, sentAt k t = some sub →
        (∃ err, (links k).engine.accept sub = .error err) ∧ (links k).called sub = false := by
    intro hretry k t ht hi sub hsub
    have hmem : t ∈ settled := mem_of_getElem? ht
    obtain ⟨err, hf'⟩ := retryable_of_made h hmem (hmade t hmem hi) hi hr hf
    rw [hf'] at hretry
    have hnot := notStarted_of_retryable hmutation hretry
    rw [Settlement.notStarted] at hnot
    cases hanswer : t.answer with
    | error err => simp [hanswer] at hnot
    | ok reply =>
      simp only [hanswer] at hnot
      rw [settled_answer ht] at hanswer
      exact notStarted_right (links k) hanswer hnot sub hsub
  refine ⟨fun hretry k t ht hi => ?_, fun k t sub ht hi hsub hcalled => ?_, fun k t ht => ?_⟩
  · cases hsub : sentAt k t with
    | none => exact .inl rfl
    | some sub => exact .inr ⟨sub, rfl, hright hretry k t ht hi sub hsub⟩
  · refine Bool.eq_false_iff.mpr fun hretry => ?_
    have hnot := (hright hretry k t ht hi sub hsub).2
    rw [hcalled] at hnot
    cases hnot
  · have hgroup := mem_map_of_mem (f := Settlement.group) (mem_of_getElem? ht)
    rw [settlements_groups] at hgroup
    exact subRequest_part hgroup t.grant

/-- A delete that its Engine finds too large: retryable, and the service was not called. -/
theorem retryable_not_executed_rejected :
    let w := World.replying fun req => .ok (Engine.strict.forward req)
    let req : Incoming := ⟨.delete ⟨[some ⟨lit "a"⟩], .waitUntilApplied⟩, by decide⟩
    let settled := plain.settlements w req.request (plain.plan w req.request.addresses).groups
    ∃ (response : List (Option DeleteResult)) (r : DeleteResult) (f : Failure),
      plain.records w req = .ok response ∧ response[0]? = some (some r) ∧
      r.failure = some f ∧ f.retryable = true ∧ ∃ t sub, settled[0]? = some t ∧
        plain.sent (w.line 0) t.group.key (subRequest req.request t.group t.grant) = some sub ∧
          Engine.strict.calls sub = false := by
  intro w req settled
  let links : ∀ k, Link plain (w.line k) := fun k =>
    { engine := .strict
      called := Engine.strict.calls
      decode := nofun
      unary := fun _ _ h => ⟨(Except.ok.inj h).symm, rfl⟩
      stream := fun _ _ h hne => absurd (congrArg Stream.frames (Except.ok.inj h)).symm hne }
  let failed := failedResult 0
    ⟨.resourceExhausted, lit "forwarded request exceeds public message limit", true⟩ .delete
  obtain ⟨response, h⟩ : ∃ response, plain.records w req = .ok response := ⟨_, rfl⟩
  have hfills : plain.fills w req.request req.request.addresses = [(0, failed)] := rfl
  have hslot := records_slot h (hfills ▸ mem_singleton.mpr rfl) Nat.zero_lt_one
  -- the one sub-request, answered with an error code
  let t : Settlement := plain.run (w.line 0) req.request
    ⟨⟨lit "s", lit "e:1", true, [], lit "e:1"⟩, [0]⟩ (fullBudget 1000)
  have hsettled : settled = [t] := rfl
  have hat : settled[0]? = some t := by rw [hsettled]; rfl
  have hcode : ∀ reply, t.answer = .ok reply → reply.code = Code.resourceExhausted := by
    intro reply hreply
    rw [← Except.ok.inj hreply]
    rfl
  have hsent : (plain.sent (w.line 0) t.group.key
      (subRequest req.request t.group t.grant)).isSome := rfl
  have hmade : ∀ t ∈ settled, 0 ∈ t.group.members → ∀ results, ¬t.Replied .delete results := by
    intro t' ht' _ results ⟨reply, hanswer, hok, _⟩
    obtain rfl := mem_singleton.mp ht'
    rw [hcode reply hanswer] at hok
    cases hok
  have hboth := retryable_not_executed plain w links req nofun response h 0 _ _ hslot rfl hmade
  rcases hboth.1 rfl 0 t hat (mem_singleton.mpr rfl) with hnone | ⟨sub, hsub, -, hcalled⟩
  · exact absurd hnone (isSome_iff_ne_none.mp hsent)
  · exact ⟨response, _, _, h, hslot, rfl, rfl, t, sub, hat, hsub, hcalled⟩

end Server

end Sink.Gateway
