import Sink.Reads.Coalesced

/-!
# Coalesced reads end

`executeReads` over any Store. Storage may answer a read as it likes: with an
error, with too few results, with documents of any size, or with a request to
wait, if the budget of the record has a working set to wait for. Callers may go
away at any time. The loop ends all the same, and every call is answered once.

`RoundWorld` is what storage and memory answer in one round.
-/

namespace Sink

open Grouping List

/-- What happens in one round. A Store has the error of a full working set from
the budget of the operation only. -/
structure RoundWorld extends ReadAnswers where
  honest : ∀ cells operations results, storage cells operations = .ok results →
    ∀ read ∈ operations.zip results, WriteExecution.isDeferred read.2 = true →
      read.1.budget.waits = true

/-- What happens around the rounds of one batch. -/
structure TurnWorld where
  expired : Nat → ReadCall → Option GoError
  execution : Nat → RoundWorld

def TurnWorld.answers (world : TurnWorld) : BatchAnswers :=
  ⟨world.expired, fun time => (world.execution time).toReadAnswers⟩

/-! ## A caller that is alone -/

namespace Server

variable {srv : Server} {budgets : Option RequestBudgets}
  {world : RoundWorld} {req : ReadRequest} {outcome : ReadOutcome}

/-- A read that succeeds responds to some answers, which do not ask a single caller
to wait. -/
theorem read_eq (h : srv.read world.toReadAnswers req budgets = .ok outcome) :
    ∃ stored, outcome = srv.executeRead req.operations budgets stored world.output ∧
      (callerCount budgets = 1 → ∀ address,
        WriteExecution.isDeferred (stored address) = false) := by
  unfold read at h
  split at h
  · cases h
  split at h
  · cases h
  split at h
  · cases h
  dsimp only at h
  split at h
  · cases h
    exact ⟨_, rfl, fun _ _ => rfl⟩
  split at h
  · cases h
  rename_i results hresults
  split at h
  · cases h
  cases h
  exact ⟨_, rfl, fun hone => srv.storedFor_single
    (readGroups_groups srv req.operations).nonempty hone
    (world.honest _ _ results hresults)⟩

theorem read_single (hmax : 0 < srv.maxReadBytes) (hone : callerCount budgets = 1)
    (h : srv.read world.toReadAnswers req budgets = .ok outcome) : outcome.deferred 0 = false := by
  obtain ⟨stored, rfl, hstored⟩ := read_eq h
  exact deferredCallers_single hmax hone (hstored hone)

end Server

/-! ## Answered calls -/

/-- The reply is the call's: an error, or a response of its own length with
results that are numbered from zero. -/
def Answers (call : ReadCall) (reply : Nat × ReadReply) : Prop :=
  reply.1 = call.id ∧ ((∃ err, reply.2 = .error err) ∨
    ∃ results, reply.2 = .ok results ∧ results.length = call.size ∧
      ∀ i result, results[i]? = some result → result.operationIndex = i % 2 ^ 32)

/-- Of the calls, those that are not put back are answered, once each. -/
def Settles (calls : List ReadCall) (replies : List (Nat × ReadReply)) (back : List ReadCall) :
    Prop :=
  ∃ done, (done ++ back).Perm calls ∧ Forall₂ Answers done replies

namespace Settles

variable {calls back : List ReadCall} {replies : List (Nat × ReadReply)}

theorem refl (calls : List ReadCall) : Settles calls [] calls := ⟨[], .refl _, .nil⟩

theorem trans {left others} (h : Settles calls replies back) (h' : Settles back others left) :
    Settles calls (replies ++ others) left := by
  obtain ⟨done, hperm, hanswers⟩ := h
  obtain ⟨done', hperm', hanswers'⟩ := h'
  refine ⟨done ++ done', ?_, rel_append hanswers hanswers'⟩
  rw [append_assoc]
  exact (hperm'.append_left done).trans hperm

theorem append (h : Settles calls replies back) (tail : List ReadCall) :
    Settles (calls ++ tail) replies (back ++ tail) := by
  obtain ⟨done, hperm, hanswers⟩ := h
  refine ⟨done, ?_, hanswers⟩
  rw [← append_assoc]
  exact hperm.append_right tail

theorem cons {call : ReadCall} {reply : Nat × ReadReply} (hreply : Answers call reply)
    (h : Settles calls replies back) : Settles (call :: calls) (reply :: replies) back := by
  obtain ⟨done, hperm, hanswers⟩ := h
  exact ⟨call :: done, hperm.cons call, .cons hreply hanswers⟩

theorem skip (h : Settles calls replies back) (call : ReadCall) :
    Settles (call :: calls) replies (call :: back) := by
  obtain ⟨done, hperm, hanswers⟩ := h
  exact ⟨done, perm_middle.trans (hperm.cons call), hanswers⟩

end Settles

theorem splitResults_settles (deferred : Nat → Bool) (owner : Nat) {results calls}
    (h : results.length = totalReadOperations calls) :
    Settles calls (splitResults deferred owner results calls).1
      (splitResults deferred owner results calls).2 := by
  induction calls generalizing owner results with
  | nil => exact .refl []
  | cons call calls ih =>
    rw [totalReadOperations_cons] at h
    have hdrop : (results.drop call.size).length = totalReadOperations calls := by
      rw [length_drop]
      omega
    have hrest := ih (owner + 1) hdrop
    rw [splitResults]
    split
    · exact hrest.skip call
    refine .cons ⟨rfl, .inr ⟨_, rfl, ?_, ?_⟩⟩ hrest
    · rw [length_mapIdx, length_take]
      omega
    · intro i result hresult
      rw [getElem?_mapIdx, Option.map_eq_some_iff] at hresult
      obtain ⟨stored, _, rfl⟩ := hresult
      rfl

theorem settles_error (calls : List ReadCall) (err : GoError) :
    Settles calls (calls.map fun call => (call.id, .error err)) [] := by
  induction calls with
  | nil => exact .refl []
  | cons call calls ih => exact .cons ⟨rfl, .inl ⟨err, rfl⟩⟩ ih

theorem splitReadResponse_settles (calls : List ReadCall) (outcome : Fallible ReadOutcome) :
    Settles calls (splitReadResponse calls outcome).1 (splitReadResponse calls outcome).2 := by
  unfold splitReadResponse
  split
  · exact settles_error calls _
  split
  · exact settles_error calls _
  · rename_i hlength
    exact splitResults_settles _ 0 (not_not.mp hlength)

namespace BatchingServer

variable {b : BatchingServer}

theorem expiredReplies_settles (world : BatchAnswers) (time : Nat) (calls : List ReadCall) :
    Settles calls (expiredReplies world time calls) (liveCalls world time calls) := by
  induction calls with
  | nil => exact .refl []
  | cons call calls ih =>
    rw [expiredReplies, liveCalls, filterMap_cons, filter_cons]
    cases hexpired : world.expired time call with
    | none => exact ih.skip call
    | some err => exact ih.cons ⟨rfl, .inl ⟨err, rfl⟩⟩

theorem executeRound_single (world : RoundWorld) (call : ReadCall) :
    (b.executeGroup world.toReadAnswers [call]).2 = [] := by
  rw [executeGroup]
  cases hread : b.server.read world.toReadAnswers (combinedRead [call])
      (some (callBudgets [call])) with
  | error err => rfl
  | ok outcome =>
    have hlive := Server.read_single b.maxReadBytes_pos (callerCount_callBudgets [call]) hread
    rw [splitReadResponse]
    split
    · rfl
    · simp [splitResults, hlive]

/-! ## The loop ends -/

theorem parts_settles (world : TurnWorld) :
    Parts b world.answers (fun _ => True) Settles where
  sublist _ _ := trivial
  nil := .refl []
  trans := Settles.trans
  append := Settles.append
  expired time _ := expiredReplies_settles world.answers time _
  execute _ _ _ := splitReadResponse_settles _ _
  single time _ := executeRound_single (world.execution time) _

/-- Every call is answered once, whatever storage, memory and callers do, within
two turns for each call and one more; a call that is executed alone is not
deferred. -/
theorem reads_finish (b : BatchingServer) (world : TurnWorld) (calls : List ReadCall) :
    (∀ fuel, 2 * calls.length + 1 ≤ fuel →
      ∃ replies, b.executeReads world.answers fuel calls = some replies ∧
        ∃ order, order.Perm calls ∧ Forall₂ Answers order replies) ∧
    ∀ (round : RoundWorld) call, (b.executeGroup round.toReadAnswers [call]).2 = [] := by
  refine ⟨?_, fun round call => executeRound_single round call⟩
  intro fuel hfuel
  obtain ⟨replies, hrun, order, hperm, hanswers⟩ := (parts_settles world).run trivial hfuel
  rw [append_nil] at hperm
  exact ⟨replies, hrun, order, hperm, hanswers⟩

/-- A Store that finds no records and makes everybody wait who can. -/
def reluctant : RoundWorld where
  admission := none
  storage _ operations := .ok (operations.map fun op =>
    if op.budget.waits then ⟨.failed, .empty, [], some (.sentinel .readWorkingSetFull)⟩
    else ⟨.notFound, .empty, [], none⟩)
  output _ := none
  honest cells operations results h := by
    cases h
    intro read hread hdeferred
    obtain ⟨i, hi⟩ := mem_iff_getElem?.mp hread
    obtain ⟨hop, hresult⟩ := getElem?_zip_eq_some.mp hi
    rw [getElem?_map, hop, Option.map_some, Option.some.injEq] at hresult
    by_contra hwaits
    rw [if_neg hwaits] at hresult
    rw [← hresult] at hdeferred
    cases hdeferred

theorem reads_finish_reluctant :
    (narrow.executeGroup reluctant.toReadAnswers [caller 0 [97], caller 1 [98]]).2.map
        ReadCall.id = [0, 1] ∧
      ∃ replies, narrow.executeReads (TurnWorld.mk (fun _ _ => none) fun _ => reluctant).answers 5
          [caller 0 [97], caller 1 [98]] = some replies ∧
        ∃ order, order.Perm [caller 0 [97], caller 1 [98]] ∧ Forall₂ Answers order replies :=
  ⟨by decide, (reads_finish narrow _ _).1 5 (by decide)⟩

end BatchingServer

end Sink
