import Sink.Reads.Batch
import Sink.Reads.Caller

/-!
# One call of a group

What `executeGroup` does for the call at one place of the group. The call's
operations are one stretch of the combined request, all owned by the call, so
its limits are about the records of its own operations only. If it is within
them it is deferred or gets `directResponse`, which says nothing of the group.
-/

namespace Sink

open List Option Memory

/-! ## Owners -/

/-- The owners of the calls' operations, if the first call is owner `k`. -/
def callOwners : Nat → List ReadCall → List Nat
  | _, [] => []
  | k, call :: calls => replicate call.size k ++ callOwners (k + 1) calls

theorem callOwners_append (k : Nat) (l l' : List ReadCall) :
    callOwners k (l ++ l') = callOwners k l ++ callOwners (k + l.length) l' := by
  induction l generalizing k with
  | nil => rfl
  | cons call l ih =>
    simp only [cons_append, callOwners, ih, length_cons, append_assoc,
      show k + 1 + l.length = k + (l.length + 1) by omega]

theorem mem_callOwners {k o : Nat} {calls : List ReadCall} (h : o ∈ callOwners k calls) :
    k ≤ o ∧ o < k + calls.length := by
  induction calls generalizing k with
  | nil => cases h
  | cons call calls ih =>
    rw [length_cons]
    rcases mem_append.mp h with h | h
    · have := eq_of_mem_replicate h
      omega
    · have := ih h
      omega

@[simp] theorem length_callOwners (k : Nat) (calls : List ReadCall) :
    (callOwners k calls).length = totalReadOperations calls := by
  induction calls generalizing k with
  | nil => rfl
  | cons call calls ih => simp [callOwners, ih, totalReadOperations]

@[simp] theorem length_combinedRead (calls : List ReadCall) :
    (combinedRead calls).operations.length = totalReadOperations calls := by
  rw [combinedRead, length_flatMap]
  rfl

theorem foldl_addContext (calls : List ReadCall) (b : RequestBudgets) :
    let b' := calls.foldl (fun budgets call => budgets.addContext call.ctx call.size) b
    b'.owners = b.owners ++ callOwners b.count calls ∧
      b'.count = b.count + calls.length ∧
        b'.trackers = b.trackers ++ calls.map (·.ctx.tracker) := by
  induction calls generalizing b with
  | nil => simp [callOwners]
  | cons call calls ih =>
    obtain ⟨howners, hcount, htrackers⟩ := ih (b.addContext call.ctx call.size)
    simp only [foldl_cons, howners, hcount, htrackers]
    refine ⟨?_, ?_, ?_⟩
    · simp [RequestBudgets.addContext, callOwners]
    · simp only [RequestBudgets.addContext, length_cons]
      omega
    · simp [RequestBudgets.addContext]

section

variable (calls : List ReadCall)

theorem callBudgets_owners : (callBudgets calls).owners = callOwners 0 calls :=
  (foldl_addContext calls .empty).1

@[simp] theorem callerCount_callBudgets : callerCount (some (callBudgets calls)) = calls.length :=
  (foldl_addContext calls .empty).2.1.trans (Nat.zero_add _)

theorem callBudgets_trackers : (callBudgets calls).trackers = calls.map (·.ctx.tracker) :=
  (foldl_addContext calls .empty).2.2

theorem ownerOf_callBudgets (i : Nat) :
    ownerOf (some (callBudgets calls)) i = (callOwners 0 calls).getD i 0 := by
  rw [ownerOf, callBudgets_owners]

theorem ownerOf_lt {i : Nat} (hi : i < (combinedRead calls).operations.length) :
    ownerOf (some (callBudgets calls)) i < callerCount (some (callBudgets calls)) := by
  rw [length_combinedRead, ← length_callOwners 0 calls] at hi
  have hmem : (callOwners 0 calls)[i] ∈ callOwners 0 calls := getElem_mem hi
  rw [callerCount_callBudgets, ownerOf_callBudgets, getD_eq_getElem?_getD,
    getElem?_eq_getElem hi, getD_some]
  have := mem_callOwners hmem
  omega

end

/-! ## The stretch of one call -/

section

variable (before after : List ReadCall) (call : ReadCall)

theorem totalReadOperations_append (l l' : List ReadCall) :
    totalReadOperations (l ++ l') = totalReadOperations l + totalReadOperations l' := by
  simp [totalReadOperations]

theorem totalReadOperations_cons (l : List ReadCall) :
    totalReadOperations (call :: l) = call.size + totalReadOperations l := by
  simp [totalReadOperations]

theorem combinedRead_split : (combinedRead (before ++ call :: after)).operations =
    (combinedRead before).operations ++
      (call.request.operations ++ (combinedRead after).operations) := by
  simp [combinedRead]

theorem callOwners_split : callOwners 0 (before ++ call :: after) = callOwners 0 before ++
    (replicate call.size before.length ++ callOwners (before.length + 1) after) := by
  rw [callOwners_append, Nat.zero_add, callOwners]

theorem ownerOf_stretch {j : Nat} (hj : j < call.size) :
    ownerOf (some (callBudgets (before ++ call :: after))) (totalReadOperations before + j) =
      before.length := by
  rw [ownerOf_callBudgets, callOwners_split, getD_eq_getElem?_getD, getElem?_append_right (by simp),
    length_callOwners, Nat.add_sub_cancel_left, getElem?_append_left (by simpa using hj),
    getElem?_replicate, if_pos hj, getD_some]

theorem readAddress_stretch (srv : Server) {j : Nat} (hj : j < call.size) :
    srv.readAddress (combinedRead (before ++ call :: after)).operations
        (totalReadOperations before + j) =
      srv.readAddress call.request.operations j := by
  rw [Server.readAddress, Server.readAddress, combinedRead_split, getD_eq_getElem?_getD,
    getElem?_append_right (by simp), length_combinedRead, Nat.add_sub_cancel_left,
    getElem?_append_left hj, getD_eq_getElem?_getD]

theorem trackerOf_call :
    trackerOf (some (callBudgets (before ++ call :: after))) before.length = call.ctx.tracker := by
  rw [trackerOf, callBudgets_trackers]
  simp

theorem count_callOwners :
    (callOwners 0 (before ++ call :: after)).count before.length = call.size := by
  have hbefore : (callOwners 0 before).count before.length = 0 :=
    count_eq_zero.mpr fun h => by
      have := mem_callOwners h
      omega
  have hafter : (callOwners (before.length + 1) after).count before.length = 0 :=
    count_eq_zero.mpr fun h => by
      have := mem_callOwners h
      omega
  rw [callOwners_split]
  simp [hbefore, hafter]

/-- The text limit of a call's failures is that of the call alone. -/
theorem resultLimit_stretch (maximum : Int) {j : Nat} (hj : j < call.size) :
    resultLimit (some (callBudgets (before ++ call :: after))) maximum
        (totalReadOperations (before ++ call :: after)) (totalReadOperations before + j) =
      failureMessageLimit call.size maximum := by
  unfold resultLimit
  rw [ownerOf_stretch before after call hj]
  have hcount : (range (totalReadOperations (before ++ call :: after))).countP (fun i =>
      ownerOf (some (callBudgets (before ++ call :: after))) i == before.length) = call.size := by
    rw [← count_callOwners before after call, count,
      ← length_callOwners 0 (before ++ call :: after)]
    conv_rhs => rw [← Grouping.map_getD_range (callOwners 0 (before ++ call :: after)) 0]
    rw [countP_map]
    simp only [ownerOf_callBudgets]
    rfl
  simp only [hcount]

end

/-! ## Limits -/

def Server.recordOf (srv : Server) (op : Option Wire.ReadOperation) : Option Address :=
  (srv.codec.parseRecord (Wire.ReadOperation.getUri op)).toOption

namespace ReadCall

variable (srv : Server) (store : Store) (call : ReadCall)

/-- The records of the call's valid operations, in order. -/
def addresses : List Address :=
  call.request.operations.filterMap srv.recordOf

/-- The call is within its limits: the snapshots of its distinct records, and
the documents of all its operations. -/
structure Within : Prop where
  snapshots : ((call.addresses srv).dedup.map store.bytes).sum ≤
    trackerLimit call.ctx.tracker .snapshots srv.maxReadBytes
  outputs : ((call.addresses srv).map store.bytes).sum ≤
    trackerLimit call.ctx.tracker .outputs srv.maxReadBytes

end ReadCall

/-- The records of a caller, by the owners of the operations. -/
theorem ownAddresses_zip (srv : Server) (ops : List (Option Wire.ReadOperation))
    {budgets : RequestBudgets} (hlen : budgets.owners.length = ops.length) (a : Nat) :
    srv.ownAddresses ops (some budgets) a = (ops.zip budgets.owners).filterMap fun p =>
      if p.2 = a then srv.recordOf p.1 else none := by
  have hzip : ops.zip budgets.owners = (range ops.length).map fun i =>
      (ops.getD i none, budgets.owners.getD i 0) := by
    refine ext_getElem (by simp [hlen]) fun i hi _ => ?_
    have hops : i < ops.length := by
      rw [length_zip] at hi
      omega
    have howners : i < budgets.owners.length := by omega
    simp [hops, howners]
  rw [hzip, filterMap_map, Server.ownAddresses, Server.readIndexes, filter_filterMap, map_filterMap]
  refine filterMap_congr fun i _ => ?_
  simp only [Function.comp_apply, ownerOf, Server.readAddress, Server.recordOf]
  cases (srv.codec.parseRecord (Wire.ReadOperation.getUri (ops.getD i none))).toOption with
  | none => simp
  | some address =>
    by_cases howner : budgets.owners.getD i 0 = a
    · simp only [map_some, filter_some, howner, beq_self_eq_true, if_true]
    have hne : (budgets.owners.getD i 0 == a) = false := by simpa using howner
    simp only [map_some, filter_some, hne, Bool.false_eq_true, if_false, if_neg howner, map_none]

theorem filterMap_zip_other {α β : Type} (f : α → Option β) {ops : List α} {owners : List Nat}
    {a : Nat} (h : ∀ o ∈ owners, o ≠ a) :
    ((ops.zip owners).filterMap fun p => if p.2 = a then f p.1 else none) = [] := by
  rw [filterMap_eq_nil_iff]
  intro p hp
  exact if_neg (h p.2 (of_mem_zip hp).2)

theorem filterMap_zip_own {α β : Type} (f : α → Option β) (ops : List α) (a : Nat) :
    ((ops.zip (replicate ops.length a)).filterMap fun p =>
      if p.2 = a then f p.1 else none) = ops.filterMap f := by
  induction ops with
  | nil => rfl
  | cons op ops ih =>
    simp only [length_cons, replicate_succ, zip_cons_cons, filterMap_cons, if_true, ih]

theorem ownAddresses_call (srv : Server) (before after : List ReadCall) (call : ReadCall) :
    srv.ownAddresses (combinedRead (before ++ call :: after)).operations
        (some (callBudgets (before ++ call :: after))) before.length =
      call.addresses srv := by
  have hlen : (callBudgets (before ++ call :: after)).owners.length =
      (combinedRead (before ++ call :: after)).operations.length := by
    rw [callBudgets_owners, length_callOwners, length_combinedRead]
  have hbefore : ∀ o ∈ callOwners 0 before, o ≠ before.length := by
    intro o ho
    have := mem_callOwners ho
    omega
  have hafter : ∀ o ∈ callOwners (before.length + 1) after, o ≠ before.length := by
    intro o ho
    have := mem_callOwners ho
    omega
  rw [ownAddresses_zip srv _ hlen, callBudgets_owners, combinedRead_split, callOwners_split,
    zip_append (by simp), zip_append (by simp [ReadCall.size]), filterMap_append,
    filterMap_append, filterMap_zip_other _ hbefore, filterMap_zip_other _ hafter,
    ReadCall.size, filterMap_zip_own, nil_append, append_nil]
  rfl

theorem within_call {srv : Server} {store : Store} {call : ReadCall}
    (h : call.Within srv store) (before after : List ReadCall) :
    srv.Within store (combinedRead (before ++ call :: after)).operations
      (some (callBudgets (before ++ call :: after))) before.length := by
  refine ⟨?_, ?_⟩
  · rw [ownAddresses_call, trackerOf_call]
    exact h.snapshots
  · rw [ownAddresses_call, trackerOf_call]
    exact h.outputs

/-! ## Responses -/

def Server.directResponse (srv : Server) (store : Store) (call : ReadCall) :
    List ReadResult :=
  let limit := failureMessageLimit call.size srv.maxReadBytes
  (range call.size).map fun j =>
    let result := srv.directResult store call.request.operations j
    { result with
      operationIndex := j % 2 ^ 32
      failure := boundFailure limit result.failure }

def ownResults (before : List ReadCall) (call : ReadCall) (response : List ReadResult) :
    List ReadResult :=
  ((response.drop (totalReadOperations before)).take call.size).mapIdx fun i r =>
    { r with operationIndex := i % 2 ^ 32 }

@[simp] theorem length_executeRead (srv : Server) (ops : List (Option Wire.ReadOperation))
    (budgets : Option RequestBudgets) (stored : Address → Storage.ReadResult)
    (output : Nat → Option GoError) :
    (srv.executeRead ops budgets stored output).response.length = ops.length := by
  simp [Server.executeRead, boundReadFailures]

/-- Where a result stands does not matter for what it says. -/
theorem directResult_index (srv : Server) (store : Store)
    {ops ops' i i'} (h : srv.readAddress ops i = srv.readAddress ops' i') (k : Nat) :
    { srv.directResult store ops i with operationIndex := k } =
      { srv.directResult store ops' i' with operationIndex := k } := by
  unfold Server.directResult
  rw [h]
  cases srv.readAddress ops' i' with
  | error err => rfl
  | ok address =>
    unfold applyReadResult
    dsimp only
    split
    · split <;> rfl
    all_goals rfl

section

variable {srv : Server} {store : Store} {world : ReadWorld} {call : ReadCall}

theorem ownResults_direct (hgrants : world.Grants) (hmax : 0 < srv.maxReadBytes)
    (hwithin : call.Within srv store) (before after : List ReadCall)
    {stored : Address → Storage.ReadResult}
    (hstored : stored = srv.readSnapshots store world
      (combinedRead (before ++ call :: after)).operations
      (some (callBudgets (before ++ call :: after))))
    (hlive : srv.deferredCallers (combinedRead (before ++ call :: after)).operations
      (some (callBudgets (before ++ call :: after))) stored before.length = false) :
    ownResults before call (srv.executeRead (combinedRead (before ++ call :: after)).operations
        (some (callBudgets (before ++ call :: after))) stored world.output).response =
      srv.directResponse store call := by
  have htotal := totalReadOperations_append before (call :: after)
  rw [totalReadOperations_cons] at htotal
  refine ext_getElem ?_ fun j hj hj' => ?_
  · simp only [ownResults, Server.directResponse, length_mapIdx, length_take, length_drop,
      length_executeRead, length_combinedRead, length_map, length_range]
    omega
  · have hsize : j < call.size := by simpa [Server.directResponse] using hj'
    have hi : totalReadOperations before + j <
        (combinedRead (before ++ call :: after)).operations.length := by
      rw [length_combinedRead]
      omega
    have hresult := Server.readResult_own hgrants hmax (fun _ => ownerOf_lt _)
      (by simp) (within_call hwithin before after) hstored hlive hi
      (ownerOf_stretch before after call hsize)
    have hindex := directResult_index srv store
      (readAddress_stretch before after call srv hsize) (j % 2 ^ 32)
    simp only [ownResults, Server.directResponse, Server.executeRead, boundReadFailures,
      getElem_mapIdx, getElem_take, getElem_drop, getElem_map, getElem_range, length_map,
      length_range, length_combinedRead, hresult, resultLimit_stretch before after call _ hsize]
    exact congrArg (fun r : ReadResult => { r with
      failure := boundFailure (failureMessageLimit call.size srv.maxReadBytes) r.failure }) hindex

end

/-! ## Handing out -/

def received (id : Nat) (replies : List (Nat × ReadReply)) : List ReadReply :=
  replies.filterMap fun reply => if reply.1 = id then some reply.2 else none

theorem received_append (id : Nat) (l l' : List (Nat × ReadReply)) :
    received id (l ++ l') = received id l ++ received id l' :=
  filterMap_append ..

theorem received_other {id : Nat} {replies : List (Nat × ReadReply)}
    (h : ∀ reply ∈ replies, reply.1 ≠ id) : received id replies = [] :=
  filterMap_eq_nil_iff.mpr fun reply hreply => if_neg (h reply hreply)

section

variable (deferred : Nat → Bool)

variable (k : Nat) (results : List ReadResult) (calls : List ReadCall)

theorem splitResults_sublist : (splitResults deferred k results calls).2.Sublist calls := by
  induction calls generalizing k results with
  | nil => exact .slnil
  | cons call calls ih =>
    unfold splitResults
    split
    · exact (ih _ _).cons_cons call
    · exact (ih _ _).cons call

theorem splitResults_replies :
    ∀ reply ∈ (splitResults deferred k results calls).1, reply.1 ∈ calls.map ReadCall.id := by
  induction calls generalizing k results with
  | nil => intro reply h; cases h
  | cons call calls ih =>
    intro reply h
    unfold splitResults at h
    split at h
    · exact mem_cons_of_mem _ (ih _ _ reply h)
    rcases mem_cons.mp h with rfl | h
    · exact mem_cons_self
    · exact mem_cons_of_mem _ (ih _ _ reply h)

theorem splitResults_other {call other : ReadCall} (hne : other.id ≠ call.id) (k : Nat)
    (results : List ReadResult) (calls : List ReadCall) :
    received call.id (splitResults deferred k results (other :: calls)).1 =
        received call.id (splitResults deferred (k + 1) (results.drop other.size) calls).1 ∧
      (call ∈ (splitResults deferred k results (other :: calls)).2 ↔
        call ∈ (splitResults deferred (k + 1) (results.drop other.size) calls).2) := by
  have hcall : call ≠ other := fun h => hne (h ▸ rfl)
  rw [splitResults]
  split
  · exact ⟨rfl, by simp [hcall]⟩
  · exact ⟨by simp [received, hne], Iff.rfl⟩

theorem ownResults_cons (other call : ReadCall) (before : List ReadCall)
    (response : List ReadResult) :
    ownResults (other :: before) call response =
      ownResults before call (response.drop other.size) := by
  rw [ownResults, ownResults, drop_drop, totalReadOperations_cons]

theorem splitResults_call {call : ReadCall} (before after : List ReadCall) (k : Nat)
    (results : List ReadResult)
    (hdistinct : ((before ++ call :: after).map ReadCall.id).Nodup) :
    if deferred (k + before.length) then
      call ∈ (splitResults deferred k results (before ++ call :: after)).2 ∧
        received call.id (splitResults deferred k results (before ++ call :: after)).1 = []
    else
      call ∉ (splitResults deferred k results (before ++ call :: after)).2 ∧
        received call.id (splitResults deferred k results (before ++ call :: after)).1 =
          [.ok (ownResults before call results)] := by
  induction before generalizing k results with
  | nil =>
    obtain ⟨hfresh, -⟩ := nodup_cons.mp hdistinct
    have hothers : received call.id
        (splitResults deferred (k + 1) (results.drop call.size) after).1 = [] :=
      received_other fun reply hreply heq =>
        hfresh (heq ▸ splitResults_replies deferred _ _ _ reply hreply)
    rw [nil_append, length_nil, Nat.add_zero, splitResults]
    split
    · exact ⟨mem_cons_self, hothers⟩
    refine ⟨fun h => hfresh (mem_map_of_mem ?_), ?_⟩
    · exact (splitResults_sublist deferred _ _ _).subset h
    · simpa [received, ownResults, totalReadOperations] using hothers
  | cons other before ih =>
    obtain ⟨hfresh, hdistinct⟩ := nodup_cons.mp hdistinct
    have hne : other.id ≠ call.id := fun heq => hfresh (by rw [heq]; simp)
    obtain ⟨hreceived, hmem⟩ := splitResults_other deferred hne k results (before ++ call :: after)
    rw [cons_append, hreceived, hmem, ownResults_cons, length_cons,
      show k + (before.length + 1) = k + 1 + before.length by omega]
    exact ih (k + 1) (results.drop other.size) hdistinct

end

end Sink
