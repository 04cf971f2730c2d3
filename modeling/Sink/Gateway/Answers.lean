import Mathlib.Data.List.Perm.Subperm
import Sink.Gateway.Routing

/-!
# Every operation is answered once

Whatever the Engines reply, the response of `records` has one valid result for
each operation. The slots filled by a sub-request are exactly those of its
operations (`Settlement.fills_keys`): a reply is merged if it is a
permutation of valid results, and otherwise fails its whole group. Since the
groups and the operations without a route partition the request, no slot is
filled twice and none is left out.
-/

namespace Sink.Gateway.Server

open Grouping Interact List Function

variable {σ : Shape}

/-! ## Merging -/

/-- One valid result for each of `count` operations, in any order. -/
def Answers (count : Nat) (source : List (Option σ.Result)) (results : List σ.Result) : Prop :=
  source = results.map some ∧ (∀ r ∈ results, validResult r = true) ∧
    (results.map operationIndex).Perm (range count)

variable {source : List (Option σ.Result)}

/-- What the first loop of `mergeResults` accepts. -/
theorem checkResults_iff {count : Nat} {seen : List Nat} :
    checkResults count seen source = true ↔ ∃ results : List σ.Result,
      source = results.map some ∧ (∀ r ∈ results, validResult r = true) ∧
        (∀ r ∈ results, operationIndex r < count ∧ operationIndex r ∉ seen) ∧
          (results.map operationIndex).Nodup := by
  induction source generalizing seen with
  | nil => simp [checkResults]
  | cons first rest ih =>
    cases first with
    | none =>
      refine iff_of_false nofun fun ⟨results, hsource, _⟩ => ?_
      cases results <;> simp at hsource
    | some r =>
      simp only [checkResults, Bool.and_eq_true, decide_eq_true_eq, Bool.not_eq_true',
        contains_eq_mem, decide_eq_false_iff_not, ih]
      constructor
      · rintro ⟨⟨⟨hlt, hseen⟩, hvalid⟩, results, rfl, hall, hnew, hnd⟩
        refine ⟨r :: results, rfl, ?_, ?_, ?_⟩
        · simpa using ⟨hvalid, hall⟩
        · exact forall_mem_cons.mpr ⟨⟨hlt, hseen⟩, fun x hx => ⟨(hnew x hx).1,
            fun h => (hnew x hx).2 (mem_cons_of_mem _ h)⟩⟩
        · refine nodup_cons.mpr ⟨fun h => ?_, hnd⟩
          obtain ⟨x, hx, heq⟩ := mem_map.mp h
          exact (hnew x hx).2 (heq ▸ mem_cons_self)
      · rintro ⟨results, hsource, hall, hnew, hnd⟩
        cases results with
        | nil => simp at hsource
        | cons r' results =>
          obtain ⟨hr, hrest⟩ := cons.inj hsource
          cases hr
          obtain ⟨hhead, hnd⟩ := nodup_cons.mp hnd
          obtain ⟨hlt, hseen⟩ := hnew r mem_cons_self
          refine ⟨⟨⟨hlt, hseen⟩, hall r mem_cons_self⟩, results, hrest, ?_, ?_, hnd⟩
          · exact (forall_mem_cons.mp hall).2
          · intro x hx
            obtain ⟨hxlt, hxseen⟩ := hnew x (mem_cons_of_mem _ hx)
            refine ⟨hxlt, fun h => ?_⟩
            rcases mem_cons.mp h with heq | h
            · exact hhead (heq ▸ mem_map_of_mem hx)
            · exact hxseen h

theorem perm_range_iff {l : List Nat} {n : Nat} (hlen : l.length = n) :
    l.Perm (range n) ↔ l.Nodup ∧ ∀ x ∈ l, x < n := by
  constructor
  · intro h
    exact ⟨h.nodup_iff.mpr nodup_range, fun x hx => mem_range.mp (h.subset hx)⟩
  · intro ⟨hnd, hlt⟩
    have hsub : l ⊆ range n := fun x hx => mem_range.mpr (hlt x hx)
    exact (subperm_of_subset hnd hsub).perm_of_length_le (by simp [hlen])

def slotOf (indices : List Nat) (r : σ.Result) : Nat × σ.Result :=
  (indices.getD (operationIndex r) 0, renumber (indices.getD (operationIndex r) 0) r)

variable {indices : List Nat}

variable {slots : List (Nat × σ.Result)}

theorem mergeResults_ok (h : mergeResults source indices = .ok slots) :
    ∃ results, Answers indices.length source results ∧ slots = results.map (slotOf indices) := by
  unfold mergeResults at h
  split at h
  · cases h
  rename_i hlen
  split at h
  · cases h
  rename_i hcheck
  have hcheck : checkResults indices.length [] source = true := by simpa using hcheck
  obtain ⟨results, rfl, hvalid, hnew, hnd⟩ := checkResults_iff.mp hcheck
  refine ⟨results, ⟨rfl, hvalid, (perm_range_iff ?_).mpr ⟨hnd, ?_⟩⟩, ?_⟩
  · simpa using hlen
  · intro x hx
    obtain ⟨r, hr, rfl⟩ := mem_map.mp hx
    exact (hnew r hr).1
  · rw [← Except.ok.inj h]
    simp [filterMap_map, slotOf]

variable {results : List σ.Result}

theorem mergeResults_of_answers (h : Answers indices.length source results) :
    mergeResults source indices = .ok (results.map (slotOf indices)) := by
  obtain ⟨rfl, hvalid, hperm⟩ := h
  have hlen : (results.map some).length = indices.length := by
    simpa using hperm.length_eq
  have hlt : ∀ r ∈ results, operationIndex r < indices.length := fun r hr =>
    mem_range.mp (hperm.subset (mem_map_of_mem hr))
  have hcheck : checkResults indices.length [] (results.map some) = true :=
    checkResults_iff.mpr ⟨results, rfl, hvalid, fun r hr => ⟨hlt r hr, not_mem_nil⟩,
      hperm.nodup_iff.mpr nodup_range⟩
  unfold mergeResults
  simp [hlen, hcheck, filterMap_map, slotOf]

/-- The merged results fill each slot of the group once. -/
theorem Answers.slots_perm (h : Answers indices.length source results) :
    ((results.map (slotOf indices)).map Prod.fst).Perm indices := by
  have hperm := h.2.2.map fun p => indices.getD p 0
  rw [Grouping.map_getD_range] at hperm
  simpa [slotOf, comp_def] using hperm

/-! ## One sub-request -/

theorem failRecords_keys (σ : Shape) (indices : List Nat) (err : Status) (notStarted : Bool) :
    (failRecords σ indices err notStarted).map Prod.fst = indices := by
  simp [failRecords, comp_def]

namespace Settlement

variable (t : Settlement)

/-- The reply is a valid permutation of the group's indexes. -/
def Replied (σ : Shape) (results : List σ.Result) : Prop :=
  ∃ reply, t.answer = .ok reply ∧ reply.code = Code.ok ∧
    Answers t.group.members.length (reply.results σ) results

theorem merged_ok (h : t.merged σ = .ok slots) :
    ∃ results, t.Replied σ results ∧ slots = results.map (slotOf t.group.members) := by
  obtain ⟨reply, hanswer, h⟩ := bind_ok h
  split at h
  · cases h
  rename_i hcode
  obtain ⟨results, hresults, hslots⟩ := mergeResults_ok h
  exact ⟨results, ⟨reply, hanswer, not_not.mp hcode, hresults⟩, hslots⟩

variable {t}

theorem Replied.fills_eq {results : List σ.Result} (h : t.Replied σ results) :
    t.fills σ = results.map (slotOf t.group.members) := by
  obtain ⟨reply, hanswer, hcode, hresults⟩ := h
  have hmerged : t.merged σ = .ok (results.map (slotOf t.group.members)) := by
    simp only [merged, hanswer, ok_bind, hcode, ne_eq, not_true, if_false]
    exact mergeResults_of_answers hresults
  rw [fills, hmerged]

theorem fills_of_not_replied (h : ∀ results, ¬t.Replied σ results) :
    ∃ err, t.merged σ = .error err ∧
      t.fills σ = failRecords σ t.group.members err t.notStarted := by
  cases hmerged : t.merged σ with
  | error err => exact ⟨err, rfl, by rw [fills, hmerged]⟩
  | ok slots =>
    obtain ⟨results, hresults, -⟩ := t.merged_ok hmerged
    exact absurd hresults (h results)

variable (t)

theorem fills_cases (σ : Shape) :
    (∃ results, t.Replied σ results ∧ t.fills σ = results.map (slotOf t.group.members)) ∨
      ∃ err, t.fills σ = failRecords σ t.group.members err t.notStarted := by
  by_cases h : ∃ results, t.Replied σ results
  · obtain ⟨results, hresults⟩ := h
    exact .inl ⟨results, hresults, hresults.fills_eq⟩
  · obtain ⟨err, -, hfills⟩ := fills_of_not_replied (not_exists.mp h)
    exact .inr ⟨err, hfills⟩

/-- A sub-request fills the slots of its operations, each once. -/
theorem fills_keys (σ : Shape) : ((t.fills σ).map Prod.fst).Perm t.group.members := by
  rcases t.fills_cases σ with ⟨results, ⟨_, _, _, hresults⟩, hfills⟩ | ⟨err, hfills⟩
  · rw [hfills]
    exact hresults.slots_perm
  · rw [hfills, failRecords_keys]

end Settlement

/-! ## All sub-requests -/

variable (s : Server) (w : World)

variable (req : Request)

/-- The group numbered `k` is forwarded over the line of that number. -/
theorem settle_getElem {k j groups remaining group} (h : groups[j]? = some group) : ∃ grant,
      (s.settle w req k groups remaining)[j]? = some (s.run (w.line (k + j)) req group grant) := by
  induction groups generalizing k j remaining with
  | nil => simp at h
  | cons first rest ih =>
    cases j with
    | zero =>
      obtain rfl : first = group := by simpa using h
      exact ⟨remaining, rfl⟩
    | succ j =>
      have hstep := @ih (k + 1) j
        (consume remaining (s.run (w.line k) req first remaining).used) (by simpa using h)
      rw [show k + 1 + j = k + (j + 1) by omega] at hstep
      exact hstep

theorem settlements_getElem {j groups group} (h : groups[j]? = some group) : ∃ grant,
      (s.settlements w req groups)[j]? = some (s.run (w.line j) req group grant) := by
  unfold settlements
  split
  · exact ⟨fullBudget s.maxReadBytes, by simp [settleParallel, h]⟩
  · have hstep := @settle_getElem s w req 0 j groups (fullBudget s.maxReadBytes) group h
    rwa [Nat.zero_add] at hstep

theorem settle_groups (k : Nat) (groups : List StoreGroup) (remaining : Budget) :
    (s.settle w req k groups remaining).map Settlement.group = groups := by
  induction groups generalizing k remaining with
  | nil => rfl
  | cons group rest ih =>
    rw [settle, map_cons, ih]
    rfl

theorem settlements_groups (groups : List StoreGroup) :
    (s.settlements w req groups).map Settlement.group = groups := by
  unfold settlements
  split
  · have hfst : ∀ p : StoreGroup × Nat, (s.run (w.line p.2) req p.1
        (fullBudget s.maxReadBytes)).group = p.1 := fun _ => rfl
    simp only [settleParallel, map_map, comp_def, hfst]
    exact zipIdx_map_fst 0 groups
  · exact settle_groups s w req 0 groups _

/-- The slots of several sub-requests are those of their groups. -/
theorem flatten_fills_keys (σ : Shape) (ts : List Settlement) :
    ((ts.map fun t => t.fills σ).flatten.map Prod.fst).Perm
      ((ts.map Settlement.group).flatMap Group.members) := by
  induction ts with
  | nil => exact Perm.refl _
  | cons t ts ih =>
    simp only [map_cons, flatten_cons, map_append, flatMap_cons]
    exact (t.fills_keys σ).append ih

variable {s w} {addresses : List GoString}

/-- The failed operations are those without a route. -/
theorem failures_keys : (s.plan w addresses).failures.map Prod.fst =
    (range addresses.length).filter fun i => (s.routeAt w addresses i).isNone := by
  rw [(planned s w addresses).failures]
  induction range addresses.length with
  | nil => rfl
  | cons i l ih =>
    cases howner : s.owner w addresses (uriAt addresses i) with
    | error err => simp [rejectionAt, howner, routeAt_of_error howner, ih]
    | ok route => simp [rejectionAt, howner, routeAt_eq_some.mpr howner, ih]

theorem flatMap_failRecords_keys (σ : Shape) (failures : List (Nat × Status)) :
    (failures.flatMap fun failed => failRecords σ [failed.1] failed.2 true).map Prod.fst =
      failures.map Prod.fst := by
  induction failures with
  | nil => rfl
  | cons failed rest ih =>
    rw [flatMap_cons, map_append, ih, failRecords_keys]
    rfl

theorem fills_keys_perm (req : Request) : ((s.fills w req addresses).map Prod.fst).Perm
    (((range addresses.length).filter fun i => (s.routeAt w addresses i).isNone) ++
      (s.plan w addresses).groups.flatMap Group.members) := by
  unfold fills
  rw [map_append, flatMap_failRecords_keys, failures_keys]
  refine Perm.append_left _ (((weave_perm _ _).map _).trans ?_)
  have hkeys := flatten_fills_keys req.shape (s.settlements w req (s.plan w addresses).groups)
  rwa [settlements_groups] at hkeys

theorem fills_keys_nodup (req : Request) : ((s.fills w req addresses).map Prod.fst).Nodup := by
  have hgroups := (planned s w addresses).groups
  refine (fills_keys_perm req).nodup_iff.mpr (nodup_append.mpr ⟨?_, ?_, ?_⟩)
  · exact nodup_range.filter _
  · exact hgroups.nodup_flatMap nodup_range
  · intro i hi j hj heq
    subst heq
    have hnone := (mem_filter.mp hi).2
    have hsome := (hgroups.mem_flatMap.mp hj).2
    simp [Option.isNone_iff_eq_none.mp hnone] at hsome

variable {i : Nat}

variable {req : Request}

/-- A slot comes from a failed operation or from the sub-request of its group. -/
theorem mem_fills {slot : Nat × req.shape.Result} :
    slot ∈ s.fills w req addresses ↔
      (∃ failed ∈ (s.plan w addresses).failures,
        slot ∈ failRecords req.shape [failed.1] failed.2 true) ∨
        ∃ t ∈ s.settlements w req (s.plan w addresses).groups, slot ∈ t.fills req.shape := by
  unfold fills
  rw [mem_append, mem_flatMap, (weave_perm _ _).mem_iff]
  simp

theorem validateBatch_ok (h : s.validateBatch req = .ok addresses) : addresses = req.addresses := by
  unfold validateBatch at h
  repeat' split at h
  all_goals cases h
  rfl

section

variable {req : Incoming} {response : List (Option req.request.shape.Result)}

section

variable (h : s.records w req = .ok response)

include h

theorem records_ok :
    response = (range req.request.addresses.length).map fun i =>
      ((updateEach Prod.fst (fun slot _ => some slot.2)
        (s.fills w req.request req.request.addresses) fun _ => none) i).map
          (boundFailure (failureLimit s.maxReadBytes req.request.addresses.length)) := by
  obtain ⟨addresses, hvalid, h⟩ := bind_ok h
  split at h
  · cases h
  · obtain rfl := validateBatch_ok hvalid
    exact (Except.ok.inj h).symm

/-- The response holds the slot, with its text bounded. -/
theorem records_slot {r : req.request.shape.Result}
    (hslot : (i, r) ∈ s.fills w req.request req.request.addresses)
    (hi : i < req.request.addresses.length) :
    response[i]? = some (some
      (boundFailure (failureLimit s.maxReadBytes req.request.addresses.length) r)) := by
  have hfilled := @updateEach_of_mem _ _ _ _ Prod.fst
    (fun (slot : Nat × req.request.shape.Result) _ => some slot.2) _ (fun _ => none)
    (fills_keys_nodup req.request) (i, r) hslot
  rw [records_ok h]
  simp [hi, hfilled]

section

variable {t : Settlement}
  (ht : t ∈ s.settlements w req.request (s.plan w req.request.addresses).groups)

include ht

omit response in
omit h in
theorem member_lt (hi : i ∈ t.group.members) : i < req.request.addresses.length := by
  have hgroup : t.group ∈ (s.plan w req.request.addresses).groups := by
    rw [← settlements_groups s w req.request (s.plan w req.request.addresses).groups]
    exact mem_map_of_mem ht
  have hmem := ((planned s w _).groups.mem_members hgroup).mp hi
  exact mem_range.mp hmem.1

theorem records_not_replied (hreply : ∀ results, ¬t.Replied req.request.shape results) :
    ∃ err, t.merged req.request.shape = .error err ∧ ∀ i ∈ t.group.members,
      response[i]? = some (some
        (boundFailure (failureLimit s.maxReadBytes req.request.addresses.length)
          (failedResult i (recordFailure req.request.shape err t.notStarted)
            req.request.shape))) := by
  obtain ⟨err, hmerged, hfills⟩ := Settlement.fills_of_not_replied hreply
  refine ⟨err, hmerged, fun i hi => ?_⟩
  refine records_slot h (mem_fills.mpr (.inr ⟨t, ht, ?_⟩)) (member_lt ht hi)
  rw [hfills]
  exact mem_map_of_mem hi

end

end

end

/-- A sub-request holds the operations of its group. -/
theorem subRequest_part {req : Request} {group : StoreGroup}
    (h : group ∈ (s.plan w req.addresses).groups) (grant : Budget) :
    ∃ part, subRequest req group grant = ⟨0, [], some grant, some part⟩ ∧
      Request.Part group.members req part :=
  ⟨_, rfl, Request.split_part fun _ hi =>
    mem_range.mp (((planned s w req.addresses).groups.mem_members h).mp hi).1⟩

end Sink.Gateway.Server
