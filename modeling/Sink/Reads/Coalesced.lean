import Sink.Reads.Calls

/-!
# Coalesced reads equal reads alone

The loop of `executeReads` ends: each turn answers a call, or all calls of a
group of two or more are deferred and the groups shrink to one call. A call
within its limits that does not expire receives one response, and which one
depends on the Store and the call only. So it is the response to the call alone.
-/

namespace Sink

open List

/-- Memory admission never rejects. -/
def BatchWorld.Grants (world : BatchWorld) : Prop := ∀ time, (world.execution time).Grants

/-- Nobody goes away and nothing is refused. -/
def BatchWorld.calm : BatchWorld := ⟨fun _ _ => none, fun _ => ⟨none, [], fun _ => none⟩⟩

theorem BatchWorld.calm_grants : BatchWorld.calm.Grants :=
  fun _ => ⟨rfl, (fun _ h => nomatch h), fun _ => rfl⟩

namespace BatchingServer

/-- Calls that may be executed together. -/
structure Ready (b : BatchingServer) (calls : List ReadCall) : Prop where
  distinct : (calls.map ReadCall.id).Nodup
  bounded : (totalReadOperations calls : Int) ≤ b.server.maxOperations

variable {b : BatchingServer} {store : Memory.Store} {call : ReadCall} {l l' : List ReadCall}

theorem totalReadOperations_sublist (h : l.Sublist l') :
    totalReadOperations l ≤ totalReadOperations l' := by
  induction h with
  | slnil => exact Nat.le_refl _
  | cons call _ ih =>
    rw [totalReadOperations_cons]
    omega
  | cons_cons call _ ih =>
    rw [totalReadOperations_cons, totalReadOperations_cons]
    omega

theorem Ready.sublist (h : Ready b l') (hsub : l.Sublist l') : Ready b l := by
  have hle := totalReadOperations_sublist hsub
  have hbounded := h.bounded
  exact ⟨h.distinct.sublist (hsub.map _), by omega⟩

/-! ## One group -/

theorem executeGroup_sublist (answers : ReadAnswers) (group : List ReadCall) :
    (b.executeGroup answers group).2.Sublist group := by
  unfold executeGroup splitReadResponse
  split
  · exact nil_sublist _
  split
  · exact nil_sublist _
  · exact splitResults_sublist ..

section

variable {world : ReadWorld} {group : List ReadCall}

variable (hgrants : world.Grants)

include hgrants

theorem executeGroup_ready (hready : Ready b group) (hgroup : group ≠ []) :
    ∃ stored, stored = b.server.readSnapshots store world (combinedRead group).operations
        (some (callBudgets group)) ∧
      b.executeGroup (world.over store) group =
        splitResults
          (b.server.deferredCallers (combinedRead group).operations (some (callBudgets group))
            stored)
          0
          (b.server.executeRead (combinedRead group).operations (some (callBudgets group))
            stored world.output).response
          group := by
  have hne : (combinedRead group).operations.isEmpty = false := by
    cases group with
    | nil => exact absurd rfl hgroup
    | cons first rest => simp [combinedRead, first.nonempty]
  have hcount : b.server.validateOperationCount (combinedRead group).operations.length = none := by
    rw [length_combinedRead]
    exact if_pos hready.bounded
  refine ⟨_, rfl, ?_⟩
  simp only [executeGroup, Server.read_over hgrants hne hcount, splitReadResponse,
    length_executeRead, length_combinedRead, ne_eq, not_true_eq_false, if_false]
  rfl

theorem executeGroup_single (hready : Ready b [call]) :
    (b.executeGroup (world.over store) [call]).2 = [] := by
  have hone := callerCount_callBudgets [call]
  obtain ⟨stored, hstored, hgroup⟩ :=
    @executeGroup_ready b store _ _ hgrants hready (cons_ne_nil _ _)
  have hlive : b.server.deferredCallers (combinedRead [call]).operations
      (some (callBudgets [call])) stored 0 = false :=
    Server.deferredCallers_single b.maxReadBytes_pos hone fun address => by
      rw [hstored, Server.readSnapshots_single hgrants hone]
  rw [hgroup]
  simp [splitResults, hlive]

theorem executeGroup_call (hready : Ready b group) (hwithin : call.Within b.server store)
    (hmem : call ∈ group) :
    (call ∈ (b.executeGroup (world.over store) group).2 ∧
        received call.id (b.executeGroup (world.over store) group).1 = []) ∨
      (call ∉ (b.executeGroup (world.over store) group).2 ∧
        received call.id (b.executeGroup (world.over store) group).1 =
          [.ok (b.server.directResponse store call)]) := by
  obtain ⟨stored, hstored, hgroup⟩ := executeGroup_ready hgrants hready (ne_nil_of_mem hmem)
  rw [hgroup]
  obtain ⟨before, after, rfl⟩ := append_of_mem hmem
  have hsplit := splitResults_call (b.server.deferredCallers
    (combinedRead (before ++ call :: after)).operations
    (some (callBudgets (before ++ call :: after))) stored) before after 0
    (b.server.executeRead (combinedRead (before ++ call :: after)).operations
      (some (callBudgets (before ++ call :: after))) stored world.output).response hready.distinct
  rw [Nat.zero_add] at hsplit
  split at hsplit
  · exact .inl hsplit
  rename_i hlive
  rw [ownResults_direct hgrants b.maxReadBytes_pos hwithin before after hstored
    (Bool.eq_false_iff.mpr hlive)] at hsplit
  exact .inr hsplit

theorem executeGroup_replies (hready : Ready b group) (hgroup : group ≠ []) :
    ∀ reply ∈ (b.executeGroup (world.over store) group).1, reply.1 ∈ group.map ReadCall.id := by
  obtain ⟨stored, -, hgroup⟩ := executeGroup_ready hgrants hready hgroup
  rw [hgroup]
  exact splitResults_replies _ _ _ _

end

/-! ## Responses that are owed -/

def waiting (call : ReadCall) (calls : List ReadCall) : Nat :=
  (calls.map ReadCall.id).count call.id

/-- No other call has the call's identity. -/
def Sole (call : ReadCall) (calls : List ReadCall) : Prop :=
  ∀ other ∈ calls, other.id = call.id → other = call

theorem waiting_append (call : ReadCall) (l l' : List ReadCall) :
    waiting call (l ++ l') = waiting call l + waiting call l' := by
  simp [waiting]

variable {calls : List ReadCall}

theorem waiting_mem (hdistinct : (calls.map ReadCall.id).Nodup) (hmem : call ∈ calls) :
    waiting call calls = 1 :=
  count_eq_one_of_mem hdistinct (mem_map_of_mem hmem)

theorem waiting_not_mem (hsole : Sole call calls) (hmem : call ∉ calls) :
    waiting call calls = 0 := by
  refine count_eq_zero.mpr fun h => ?_
  obtain ⟨other, hother, hid⟩ := mem_map.mp h
  exact hmem (hsole other hother hid ▸ hother)

theorem sole_of_distinct (hdistinct : (calls.map ReadCall.id).Nodup) (hmem : call ∈ calls) :
    Sole call calls :=
  fun _ hother hid => inj_on_of_nodup_map hdistinct hother hmem hid

theorem executeGroup_waiting {world : ReadWorld} {group : List ReadCall} (hgrants : world.Grants)
    (hready : Ready b group) (hgroup : group ≠ []) (hwithin : call.Within b.server store)
    (hsole : Sole call group) :
    ∃ n, received call.id (b.executeGroup (world.over store) group).1 =
        replicate n (.ok (b.server.directResponse store call)) ∧
      n + waiting call (b.executeGroup (world.over store) group).2 = waiting call group := by
  have hsub := b.executeGroup_sublist (world.over store) group
  have hrest : Sole call (b.executeGroup (world.over store) group).2 :=
    fun other hother => hsole other (hsub.subset hother)
  by_cases hmem : call ∈ group
  · rw [waiting_mem hready.distinct hmem]
    rcases executeGroup_call hgrants hready hwithin hmem with ⟨hdeferred, hnone⟩ | ⟨hdone, hone⟩
    · exact ⟨0, hnone, by rw [waiting_mem (hready.sublist hsub).distinct hdeferred]⟩
    · exact ⟨1, hone, by rw [waiting_not_mem hrest hdone]⟩
  · have hdeferred : call ∉ (b.executeGroup (world.over store) group).2 :=
      fun h => hmem (hsub.subset h)
    refine ⟨0, received_other fun reply hreply hid => ?_, ?_⟩
    · obtain ⟨other, hother, hother'⟩ :=
        mem_map.mp (executeGroup_replies hgrants hready hgroup reply hreply)
      exact hmem (hsole other hother (hother'.trans hid) ▸ hother)
    · rw [waiting_not_mem hrest hdeferred, waiting_not_mem hsole hmem]

section

variable {world : BatchAnswers} (hlive : ∀ time, world.expired time call = none)

include hlive in
theorem received_expired (time : Nat) (hsole : Sole call calls) :
    received call.id (expiredReplies world time calls) = [] := by
  refine received_other fun reply hreply hid => ?_
  obtain ⟨other, hother, herr⟩ := mem_filterMap.mp hreply
  obtain ⟨err, hexpired, rfl⟩ := Option.map_eq_some_iff.mp herr
  rw [hsole other hother hid, hlive] at hexpired
  cases hexpired

include hlive in
theorem waiting_live (time : Nat) (hsole : Sole call calls) :
    waiting call (liveCalls world time calls) = waiting call calls := by
  simp only [waiting, liveCalls, count, countP_map, countP_filter]
  refine countP_congr fun other hother => ?_
  simp only [Function.comp_apply, Bool.and_eq_true, beq_iff_eq, Option.isNone_iff_eq_none,
    and_iff_left_iff_imp]
  intro hid
  rw [hsole other hother hid, hlive]

end

/-! ## The loop -/

theorem fitting_le (b : BatchingServer) (limit : Nat) (bytes : Int) (calls : List ReadCall) :
    b.fitting limit bytes calls ≤ limit := by
  induction limit generalizing bytes calls with
  | zero => exact Nat.le_of_eq rfl
  | succ limit ih =>
    cases calls with
    | nil => exact Nat.zero_le _
    | cons call calls =>
      unfold fitting
      split
      · exact Nat.zero_le _
      · have := ih (bytes + b.callBytes call) calls
        omega

/-- What a turn takes of the calls, and what it leaves. -/
theorem groupCount_parts (b : BatchingServer) {limit : Nat} (hlimit : 1 ≤ limit)
    (first : ReadCall) (calls : List ReadCall) : ∃ chosen tail,
      (first :: calls).take (b.groupCount limit (first :: calls)) = chosen ∧
      (first :: calls).drop (b.groupCount limit (first :: calls)) = tail ∧
      chosen ++ tail = first :: calls ∧ 1 ≤ chosen.length ∧ chosen.length ≤ limit := by
  cases limit with
  | zero => omega
  | succ limit =>
    have := b.fitting_le limit ((if b.server.managed then 0 else 2 * b.server.maxReadBytes) +
      b.callBytes first) calls
    refine ⟨_, _, rfl, rfl, take_append_drop .., ?_⟩
    simp only [groupCount, length_take, length_cons]
    omega

/-- The turns that are enough. Groups of one call never take a turn for nothing. -/
def turns (limit : Nat) (calls : List ReadCall) : Nat :=
  2 * calls.length + if limit ≤ 1 then 0 else 1

/-- How the loop gets on: `n` calls are chosen, `g` of them are executed, and
`d` of these are deferred. -/
theorem turns_lt {limit n g d : Nat} (calls rest : List ReadCall) (hlimit : 1 ≤ limit)
    (hchosen : n ≤ limit) (hgroup : g ≤ n) (hg : 1 ≤ g) (hd : d ≤ g) (hsingle : g = 1 → d = 0)
    (hrest : rest.length + n = d + calls.length) :
    turns (if d = 0 then limit else max 1 (g - d)) rest < turns limit calls := by
  unfold turns
  split
  · split <;> omega
  · split <;> split <;> omega

/-- `Moves calls replies back`: of the calls, some have these replies and some are
put back. The laws make it a relation of whole runs if it is one of their parts.
`Fit` says which calls there may be. -/
structure Parts (b : BatchingServer) (world : BatchAnswers) (Fit : List ReadCall → Prop)
    (Moves : List ReadCall → List (Nat × ReadReply) → List ReadCall → Prop) : Prop where
  sublist {l l' : List ReadCall} : Fit l' → l.Sublist l' → Fit l
  nil : Moves [] [] []
  trans {calls back left : List ReadCall} {replies others : List (Nat × ReadReply)} :
    Moves calls replies back → Moves back others left → Moves calls (replies ++ others) left
  append {calls back : List ReadCall} {replies : List (Nat × ReadReply)} :
    Moves calls replies back → ∀ tail, Moves (calls ++ tail) replies (back ++ tail)
  expired {calls : List ReadCall} (time : Nat) :
    Fit calls → Moves calls (expiredReplies world time calls) (liveCalls world time calls)
  execute {group : List ReadCall} (time : Nat) : Fit group → group ≠ [] →
    Moves group (b.executeGroup (world.execution time) group).1
      (b.executeGroup (world.execution time) group).2
  single {call : ReadCall} (time : Nat) : Fit [call] →
    (b.executeGroup (world.execution time) [call]).2 = []

section

variable {world : BatchAnswers} {Fit : List ReadCall → Prop}
  {Moves : List ReadCall → List (Nat × ReadReply) → List ReadCall → Prop}
  (parts : Parts b world Fit Moves)

include parts

theorem Parts.turn (fuel time : Nat) {limit : Nat} (first : ReadCall)
    (calls : List ReadCall) (hfit : Fit (first :: calls)) (hlimit : 1 ≤ limit) :
    ∃ replies rest limit',
      b.readLoop world (fuel + 1) time limit (first :: calls) =
          (b.readLoop world fuel (time + 1) limit' rest).map (replies ++ ·) ∧
        Moves (first :: calls) replies rest ∧ rest.Sublist (first :: calls) ∧ 1 ≤ limit' ∧
        turns limit' rest < turns limit (first :: calls) := by
  obtain ⟨chosen, tail, hchosen, htail, hparts, hfirst, hchosenLe⟩ :=
    b.groupCount_parts hlimit first calls
  have hlen : chosen.length + tail.length = (first :: calls).length := by
    rw [← hparts, length_append]
  simp only [readLoop, hchosen, htail]
  have hchosenFit : Fit chosen := parts.sublist hfit (hchosen ▸ take_sublist ..)
  have hgone := parts.append (parts.expired time hchosenFit) tail
  rw [hparts] at hgone
  have hsub : (liveCalls world time chosen).Sublist chosen := filter_sublist
  generalize liveCalls world time chosen = group at hgone hsub
  cases hgroup : group.isEmpty with
  | true =>
    obtain rfl := isEmpty_iff.mp hgroup
    refine ⟨_, tail, limit, rfl, hgone, htail ▸ drop_sublist .., hlimit, ?_⟩
    unfold turns
    omega
  | false =>
    have hne : group ≠ [] := fun h => by simp [h] at hgroup
    have hround := parts.execute time (parts.sublist hchosenFit hsub) hne
    have hdeferred := b.executeGroup_sublist (world.execution time) group
    have hsingle : group.length = 1 →
        (b.executeGroup (world.execution time) group).2.length = 0 := by
      intro hone
      obtain ⟨only, rfl⟩ := length_eq_one_iff.mp hone
      rw [parts.single time (parts.sublist hchosenFit hsub), length_nil]
    generalize b.executeGroup (world.execution time) group = outcome at *
    refine ⟨_, _, _, rfl, parts.trans hgone (parts.append hround tail), ?_, ?_, ?_⟩
    · rw [← hparts]
      exact (hdeferred.trans hsub).append (Sublist.refl tail)
    · split <;> omega
    · have hlt := turns_lt (first :: calls) (outcome.2 ++ tail) hlimit hchosenLe hsub.length_le
        (length_pos_iff.mpr hne) hdeferred.length_le hsingle (by rw [length_append]; omega)
      simpa [isEmpty_iff_length_eq_zero] using hlt

theorem Parts.loop (time : Nat) {fuel limit : Nat} (hfit : Fit calls)
    (hlimit : calls ≠ [] → 1 ≤ limit) (hfuel : turns limit calls ≤ fuel) :
    ∃ replies, b.readLoop world fuel time limit calls = some replies ∧ Moves calls replies [] := by
  induction fuel generalizing time limit calls with
  | zero =>
    cases calls with
    | nil => exact ⟨[], rfl, parts.nil⟩
    | cons first calls => simp [turns] at hfuel
  | succ fuel ih =>
    cases calls with
    | nil => exact ⟨[], rfl, parts.nil⟩
    | cons first calls =>
      obtain ⟨replies, rest, limit', hturn, hmoves, hsub, hlimit', hlt⟩ :=
        parts.turn fuel time first calls hfit (hlimit (cons_ne_nil _ _))
      have hleft : turns limit' rest ≤ fuel := by omega
      obtain ⟨others, hothers, hrest⟩ :=
        ih (time + 1) (parts.sublist hfit hsub) (fun _ => hlimit') hleft
      refine ⟨replies ++ others, ?_, parts.trans hmoves hrest⟩
      rw [hturn, hothers]
      rfl

/-- The loop ends, within two turns for each call and one more. -/
theorem Parts.run {fuel : Nat} (hfit : Fit calls) (hfuel : 2 * calls.length + 1 ≤ fuel) :
    ∃ replies, b.executeReads world fuel calls = some replies ∧ Moves calls replies [] := by
  have hsub : (liveCalls world 0 calls).Sublist calls := filter_sublist
  have hturns : turns (liveCalls world 0 calls).length (liveCalls world 0 calls) ≤ fuel := by
    have := hsub.length_le
    unfold turns
    split <;> omega
  obtain ⟨replies, hloop, hmoves⟩ :=
    parts.loop 1 (parts.sublist hfit hsub) length_pos_iff.mpr hturns
  refine ⟨_, ?_, parts.trans (parts.expired 0 hfit) hmoves⟩
  rw [executeReads, hloop]
  rfl

end

section

variable {world : BatchWorld} (hgrants : world.Grants) (hwithin : call.Within b.server store)
  (hlive : ∀ time, (world.over store).expired time call = none)

include hgrants hwithin hlive

theorem parts_waiting : Parts b (world.over store) (fun calls => Ready b calls ∧ Sole call calls)
    fun calls replies back => ∃ n,
      received call.id replies = replicate n (.ok (b.server.directResponse store call)) ∧
        n + waiting call back = waiting call calls where
  sublist h hsub := ⟨h.1.sublist hsub, fun other hother => h.2 other (hsub.subset hother)⟩
  nil := ⟨0, rfl, rfl⟩
  trans := by
    rintro _ _ _ _ _ ⟨n, hreceived, hn⟩ ⟨n', hreceived', hn'⟩
    refine ⟨n + n', ?_, by omega⟩
    rw [received_append, hreceived, hreceived', replicate_append_replicate]
  append := by
    rintro _ _ _ ⟨n, hreceived, hn⟩ tail
    refine ⟨n, hreceived, ?_⟩
    rw [waiting_append, waiting_append]
    omega
  expired time h := ⟨0, received_expired hlive time h.2, by
    rw [Nat.zero_add, waiting_live hlive time h.2]⟩
  execute time h hne := executeGroup_waiting (hgrants time) h.1 hne hwithin h.2
  single time h := executeGroup_single (hgrants time) h.1

theorem executeReads_call {fuel : Nat} (hready : Ready b calls)
    (hmem : call ∈ calls) (hfuel : 2 * calls.length + 1 ≤ fuel) :
    (b.executeReads (world.over store) fuel calls).map (received call.id) =
      some [.ok (b.server.directResponse store call)] := by
  obtain ⟨replies, hrun, n, hreceived, hn⟩ := (parts_waiting hgrants hwithin hlive).run
    ⟨hready, sole_of_distinct hready.distinct hmem⟩ hfuel
  obtain rfl : n = 1 := hn.trans (waiting_mem hready.distinct hmem)
  rw [hrun, Option.map_some, hreceived, replicate_one]

end

/-- Coalesced reads equal reads alone. In a batch, under any memory grants and
with any other calls that may come, fail or expire, a call within its limits
receives one response, and it is the one it receives as the only call. -/
theorem coalesced_reads_alone (b : BatchingServer) (store : Memory.Store) (batch : ReadBatch b)
    {call : ReadCall} (hmem : call ∈ batch.calls) (hwithin : call.Within b.server store)
    {world alone : BatchWorld} (hgrants : world.Grants) (halone : alone.Grants)
    (hlive : ∀ time, world.expired time call = none)
    (hlive' : ∀ time, alone.expired time call = none)
    {fuel fuel' : Nat} (hfuel : 2 * batch.calls.length + 1 ≤ fuel) (hfuel' : 3 ≤ fuel') :
    ∃ response,
      (b.executeReads (world.over store) fuel batch.calls).map (received call.id) =
          some [.ok response] ∧
        (b.executeReads (alone.over store) fuel' [call]).map (received call.id) =
          some [.ok response] := by
  have hready : Ready b batch.calls := ⟨batch.distinct, batch.bounded⟩
  have hsingle : Ready b [call] := hready.sublist (singleton_sublist.mpr hmem)
  exact ⟨b.server.directResponse store call,
    executeReads_call hgrants hwithin hlive hready hmem hfuel,
    executeReads_call halone hwithin hlive' hsingle mem_cons_self hfuel'⟩

/-- A server with room for one document at a time. -/
def narrow : BatchingServer where
  server := { Server.small with maxReadBytes := 200 }
  readSize _ := 16
  byteLimit := 16384
  maxReadBytes_pos := by decide

def caller (id : Nat) (uri : GoString) : ReadCall :=
  ⟨id, ⟨none, false⟩, ⟨[some ⟨uri⟩]⟩, cons_ne_nil _ _⟩

def twoRecords : Memory.Store :=
  (Memory.Store.empty.seed ⟨[97]⟩ ⟨⟨.json, [123, 125]⟩, [1]⟩).seed ⟨[98]⟩ ⟨⟨.json, [91, 93]⟩, [2]⟩

-- The second caller is deferred at first.
example : (narrow.executeGroup ((BatchWorld.calm.execution 1).over twoRecords)
    [caller 0 [97], caller 1 [98]]).2.map ReadCall.id = [1] := by
  decide

theorem coalesced_reads_alone_deferred :
    ∃ response,
      (narrow.executeReads (BatchWorld.calm.over twoRecords) 5
          [caller 0 [97], caller 1 [98]]).map (received 1) = some [.ok response] ∧
        (narrow.executeReads (BatchWorld.calm.over twoRecords) 3 [caller 1 [98]]).map (received 1) =
          some [.ok response] :=
  coalesced_reads_alone narrow twoRecords ⟨[caller 0 [97], caller 1 [98]], by decide, by decide⟩
    (mem_cons_of_mem _ mem_cons_self) ⟨by decide, by decide⟩ BatchWorld.calm_grants
    BatchWorld.calm_grants (fun _ => rfl) (fun _ => rfl) (by decide) (by decide)

end BatchingServer

end Sink
