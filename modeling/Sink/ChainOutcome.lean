import Sink.ChainRun
import Sink.MemoryWorld

/-!
# Truthful outcomes of a chain

Read off `Settlement`: what an operation is told agrees with what happened
to its record. An operation is reported applied only when the last write of
its group was, a failure found by an evaluation is reported only when that
evaluation counts, and a failed or lost commit is reported to every
operation of the group.
-/

namespace Sink

open Interact Interact.Exec List

variable {op : ParsedWrite}

/-! ## Results after an evaluation -/

theorem applyGroupResult_refused {stored : Storage.WriteResult} (h : stored.status ≠ .applied)
    {result : WriteResult} (hclean : result.Clean) :
    (applyGroupResult stored result).Clean ∧ (applyGroupResult stored result).Failed := by
  refine ⟨applyGroupResult_clean h hclean, ?_⟩
  rw [applyGroupResult_of_ne_applied h]
  exact applyWriteResult_failed h _

/-- What one run leaves for its own operations: evaluated results, all
failed when the run contributes nothing to the candidate. -/
theorem prepareRun_evaluated (ctx : Nat → Bool) {st : BatchedState} (owner : Nat)
    {part : List ParsedWrite} (hnd : (part.map (·.index)).Nodup) (hop : op ∈ part)
    (hclean : (st.results op.index).Clean) :
    ((prepareRun ctx st owner part).2.results op.index).Evaluated ∧
      ((prepareRun ctx st owner part).2.candidate = none →
        ((prepareRun ctx st owner part).2.results op.index).Failed) := by
  have hfold := foldOperations_evaluated ctx ⟨none, st.current, st.results⟩ hop
  rcases prepareRun_cases ctx st owner part with ⟨-, hstep⟩ | ⟨-, hstep⟩
  · rw [hstep.results]
    refine ⟨hfold, fun hnone => ?_⟩
    rw [hstep.candidate] at hnone
    have hpart : (foldOperations ctx part ⟨none, st.current, st.results⟩).candidate = none := by
      cases h : (foldOperations ctx part ⟨none, st.current, st.results⟩).candidate with
      | none => rfl
      | some w =>
        rw [h] at hnone
        cases hnone
    rcases hfold.2 with ⟨-, hopen⟩ | hfailed
    · have hsome := (foldOperations_candidate_isSome ctx hnd st.current st.results).mpr
        ⟨op, hop, hopen⟩
      rw [hpart] at hsome
      cases hsome
    · exact hfailed
  · obtain ⟨mid, b, size, hmid, hres⟩ := hstep.results
    have hmidclean : (mid op.index).Clean := by
      rcases hmid with rfl | rfl
      · exact hclean
      · exact hfold.1
    have hne : (Storage.WriteResult.ofError (b.refusal size)).status ≠ .applied := by
      simp [Storage.WriteResult.ofError]
    obtain ⟨hc, hf⟩ := applyGroupResult_refused hne hmidclean
    rw [hres, applyWriteGroupResult_of_mem hnd hop]
    exact ⟨⟨hc, .inr hf⟩, fun _ => hf⟩

theorem prepareRuns_candidate_none (ctx : Nat → Bool) (runs : List (Nat × List ParsedWrite))
    (st : BatchedState) (h : (prepareRuns ctx runs st).2.candidate = none) :
    st.candidate = none := by
  induction runs generalizing st with
  | nil => exact h
  | cons run runs ih =>
    obtain ⟨owner, part⟩ := run
    have hstep : (prepareRun ctx st owner part).2.candidate = none := ih _ h
    rcases prepareRun_cases ctx st owner part with ⟨-, hkept⟩ | ⟨-, hrefused⟩
    · rw [hkept.candidate] at hstep
      cases hpart : (foldOperations ctx part ⟨none, st.current, st.results⟩).candidate with
      | none => rwa [hpart] at hstep
      | some w =>
        rw [hpart] at hstep
        cases hstep
    · exact hrefused.candidate ▸ hstep

theorem prepareRuns_evaluated (ctx : Nat → Bool) (runs : List (Nat × List ParsedWrite))
    (hnd : ((runOperations runs).map (·.index)).Nodup) (st : BatchedState)
    (hclean : ∀ op ∈ runOperations runs, (st.results op.index).Clean)
    (hop : op ∈ runOperations runs) :
    ((prepareRuns ctx runs st).2.results op.index).Evaluated ∧
      ((prepareRuns ctx runs st).2.candidate = none →
        ((prepareRuns ctx runs st).2.results op.index).Failed) := by
  induction runs generalizing st with
  | nil => simp [runOperations] at hop
  | cons run runs ih =>
    obtain ⟨owner, part⟩ := run
    obtain ⟨hpart, hrest, happart, hback⟩ := runs_apart hnd
    simp only [runOperations, flatMap_cons, mem_append] at hop hclean
    rw [prepareRuns_cons]
    rcases hop with hop | hop
    · have hsame : (prepareRuns ctx runs (prepareRun ctx st owner part).2).2.results op.index =
          (prepareRun ctx st owner part).2.results op.index :=
        prepareRuns_results_of_notMem ctx _ (hback op hop)
      obtain ⟨hev, hnone⟩ := prepareRun_evaluated ctx owner hpart hop (hclean op (.inl hop))
      rw [hsame]
      exact ⟨hev, fun h => hnone (prepareRuns_candidate_none ctx runs _ h)⟩
    · refine ih hrest _ (fun o ho => ?_) hop
      rw [prepareRun_results_of_notMem ctx st owner (happart o ho)]
      exact hclean o (.inr ho)

variable {g : WriteGroup}

theorem WriteExecution.Evaluates.evaluated {x : WriteExecution} (hnd : g.Distinct)
    {ctx stored before after candidate}
    (h : x.Evaluates g ctx stored before candidate after) (hclean : CleanOn g before)
    (hop : op ∈ g.operations) :
    (after op.index).Evaluated ∧ (candidate = none → (after op.index).Failed) := by
  unfold WriteExecution.Evaluates at h
  split at h
  · cases h
    have hev := foldOperations_evaluated ctx ⟨none, stored, before⟩ hop
    refine ⟨hev, fun hnone => ?_⟩
    rcases hev.2 with ⟨-, hopen⟩ | hfailed
    · have hsome := (foldOperations_candidate_isSome ctx hnd stored before).mpr ⟨op, hop, hopen⟩
      rw [hnone] at hsome
      cases hsome
    · exact hfailed
  · obtain ⟨inputs, outputs, rfl, rfl⟩ := h
    have hruns := runOperations_ownerRuns (ownerOf x.budgets) g.operations
    refine prepareRuns_evaluated ctx _ (by rw [hruns]; exact hnd) _ ?_ (by rw [hruns]; exact hop)
    rw [hruns]
    exact hclean

/-! ## Reading a settlement -/

/-- The answered writes of a history, newest first. -/
def writes (es : History) : List (Storage.WriteOperation × Storage.WriteResult) :=
  es.filterMap fun
    | .wrote op stored => some (op, stored)
    | _ => none

/-- What was published, newest first. -/
def publications (es : History) : List (List (Nat × WriteResult)) :=
  es.filterMap fun
    | .published results => some results
    | _ => none

/-- The newest evaluation of the history produced the newest write. -/
structure Commits (x : WriteExecution) (g : WriteGroup) (es : History)
    (w : Storage.WriteOperation) (reply : Storage.WriteResult) (after : Results) : Prop where
  shape : ∃ ctx stored before rest,
    es = .wrote w reply :: .evaluated ctx :: .snapshot stored :: rest ∧
      x.Evaluates g ctx stored before (some w) after

/-- The newest evaluation of the history left nothing to write. -/
structure LeavesNothing (x : WriteExecution) (g : WriteGroup) (es : History)
    (after : Results) : Prop where
  shape : ∃ ctx stored before rest, es = .evaluated ctx :: .snapshot stored :: rest ∧
    x.Evaluates g ctx stored before none after

def replyFailure (reply : Storage.WriteResult) : Option Failure :=
  (applyWriteResult (.new 0) reply).failure

theorem applyWriteResult_failure {reply : Storage.WriteResult} (h : reply.status ≠ .applied)
    (result : WriteResult) : (applyWriteResult result reply).failure = replyFailure reply := by
  unfold replyFailure applyWriteResult
  split
  · exact absurd ‹_› h
  all_goals rfl

inductive GroupFailure (es : History) : Failure → Prop where
  /-- The answer to the group's last write. -/
  | rejected {w reply rest failure : _}
      (hlast : writes es = (w, reply) :: rest) (hreply : reply.status ≠ .applied)
      (h : replyFailure reply = some failure) : GroupFailure es failure
  /-- The candidate did not fit a budget. -/
  | refused {err failure : _} (herr : err.errorDetails.1 = .resourceExhausted)
      (h : replyFailure (.ofError err) = some failure) : GroupFailure es failure
  /-- The working set could not be reserved. -/
  | exhausted (err : GoError) :
      GroupFailure es (newFailure .resourceExhausted (some err) true)
  /-- Other writers won every attempt. -/
  | conflict : GroupFailure es
      (newFailure .conflict (some (.text (lit "record changed during conditional write"))) true)

/-- The account of one operation that the history of its group justifies. -/
structure Truthful (x : WriteExecution) (g : WriteGroup) (es : History) (r : Results)
    (op : ParsedWrite) : Prop where
  /-- Applied: the last write was, and the operation succeeded in its evaluation. -/
  applied : (r op.index).status = .applied → ∃ w reply after, Commits x g es w reply after ∧
    reply.status = .applied ∧ (after op.index).failure = none
  /-- A failure is the one of an evaluation that was applied or had nothing to
  write, or it is a failure of the group that all its operations share. -/
  failed : ∀ failure, (r op.index).failure = some failure →
    (∃ w reply after, Commits x g es w reply after ∧ reply.status = .applied ∧
      (after op.index).failure = some failure) ∨
    (∃ after, LeavesNothing x g es after ∧ (after op.index).failure = some failure) ∨
    (GroupFailure es failure ∧ ∀ op' ∈ g.operations, (r op'.index).failure = some failure)
  /-- The last write was answered with a failure or an unknown status. -/
  rejected : ∀ w reply rest, writes es = (w, reply) :: rest → reply.status ≠ .applied →
    reply.status ≠ .preconditionFailed → (r op.index).status ≠ .applied ∧
      (r op.index).failure.isSome ∧ (r op.index).failure = replyFailure reply
  /-- Every attempt lost its commit. -/
  conflict : (writes es).length = x.maxMergeAttempts →
    (∀ p ∈ writes es, p.2.status = .preconditionFailed) →
      (r op.index).status = .preconditionFailed ∧ ∃ failure, (r op.index).failure = some failure ∧
        failure.code = .conflict ∧ failure.retryable = true
  /-- The outcome is final and carries a revision or a document only if applied. -/
  specified : (r op.index).status ≠ .unspecified
  revision : (r op.index).revision.isSome → (r op.index).status = .applied
  document : (r op.index).document.isSome →
    (r op.index).status = .applied ∧ op.returnDocument = true

section Reading

variable {x : WriteExecution} {g : WriteGroup}
variable {es : History} {w : Storage.WriteOperation} {reply : Storage.WriteResult}
  {r : Results} {op : ParsedWrite} {ctx : Nat → Bool} {stored : Storage.ReadResult} {n : Nat}

theorem Attempts.writes (h : Attempts x g [] n es) :
    (writes es).length = n ∧ ∀ p ∈ writes es, p.2.status = .preconditionFailed := by
  induction h with
  | start => simp [Sink.writes]
  | deferred _ _ ih => exact ih
  | conflict _ _ _ hreply ih =>
    refine ⟨congrArg (· + 1) ih.1, forall_mem_cons.mpr ⟨hreply, ih.2⟩⟩

/-- Lost commits alone cannot end in a rejected write. -/
theorem Attempts.not_rejected (h : Attempts x g [] n es)
    {rest} (hlast : Sink.writes es = (w, reply) :: rest) : reply.status = .preconditionFailed :=
  h.writes.2 (w, reply) (by rw [hlast]; exact mem_cons_self)

variable {result : WriteResult}

theorem WriteResult.Failed.ne_applied (h : result.Failed) :
    result.status ≠ .applied ∧ result.status ≠ .unspecified := by
  rcases h.1 with h | h <;> simp [h]

/-- Results of a group that failed as a whole, before all attempts were lost. -/
theorem truthful_of_groupFailure (hop : op ∈ g.operations)
    (hw : (writes es).length = n ∧ ∀ p ∈ writes es, p.2.status = .preconditionFailed)
    (hn : n < x.maxMergeAttempts) {failure : Failure} (hgf : GroupFailure es failure)
    (hall : ∀ op' ∈ g.operations, (r op'.index).failure = some failure)
    (hfailed : (r op.index).Failed) (hclean : (r op.index).Clean) : Truthful x g es r op where
  applied h := absurd h hfailed.ne_applied.1
  failed f hf := by
    cases (hall op hop).symm.trans hf
    exact .inr (.inr ⟨hgf, hall⟩)
  rejected w reply rest hlast _ hpf :=
    absurd (hw.2 (w, reply) (by rw [hlast]; exact mem_cons_self)) hpf
  conflict hlen := absurd (hw.1.symm.trans hlen) (by omega)
  specified := hfailed.ne_applied.2
  revision h := by simp [hclean.1] at h
  document h := by simp [hclean.2] at h

theorem attachDocument_of_ne_applied {flag : Bool} {document : Document}
    (h : result.status ≠ .applied) : attachDocument flag document result = result := by
  simp [attachDocument, h]

section

variable (hnd : g.Distinct)

include hnd

theorem settled_result (after : Results) (reply : Storage.WriteResult) (document : Document)
    (hop : op ∈ g.operations) :
    attachWriteDocument g.operations (applyWriteGroupResult g.operations after reply) document
        op.index =
      attachDocument op.returnDocument document (applyGroupResult reply (after op.index)) := by
  have h : attachWriteDocument g.operations (applyWriteGroupResult g.operations after reply)
      document op.index = attachDocument op.returnDocument document
        (applyWriteGroupResult g.operations after reply op.index) :=
    updateEach_of_mem hnd hop
  rw [h, applyWriteGroupResult_of_mem hnd hop]

variable {before after : Results}

theorem truthful_of_applied (hclean : CleanOn g before)
    (heval : x.Evaluates g ctx stored before (some w) after) (hreply : reply.status = .applied)
    (hop : op ∈ g.operations) :
    Truthful x g (.wrote w reply :: .evaluated ctx :: .snapshot stored :: es)
      (attachWriteDocument g.operations (applyWriteGroupResult g.operations after reply)
        w.document) op := by
  have hcommit : Commits x g (.wrote w reply :: .evaluated ctx :: .snapshot stored :: es)
      w reply after := ⟨ctx, stored, before, es, rfl, heval⟩
  have hnotlost : ¬ ∀ p ∈ writes (.wrote w reply :: .evaluated ctx :: .snapshot stored :: es),
      p.2.status = .preconditionFailed := fun h => by
    have := h (w, reply) mem_cons_self
    simp [hreply] at this
  have hnotrejected : ∀ {w' reply' rest}, writes
      (.wrote w reply :: .evaluated ctx :: .snapshot stored :: es) = (w', reply') :: rest →
        reply'.status = .applied := fun h => by
    obtain ⟨h, -⟩ := cons.inj h
    exact (Prod.mk.inj h).2 ▸ hreply
  have hresult := settled_result hnd after reply w.document hop
  generalize attachWriteDocument g.operations (applyWriteGroupResult g.operations after reply)
    w.document = r at hresult ⊢
  obtain ⟨⟨⟨hrev, hdoc⟩, hcase⟩, -⟩ := heval.evaluated hnd hclean hop
  rcases hcase with ⟨hstatus, hopen⟩ | hfailed
  · rw [applyGroupResult_succeeded hreply hopen] at hresult
    have hstatus' : (r op.index).status = .applied := by
      rw [hresult]
      unfold attachDocument
      split <;> rfl
    have hfailure : (r op.index).failure = none := by
      rw [hresult]
      unfold attachDocument
      split <;> exact hopen
    exact
      { applied := fun _ => ⟨w, reply, after, hcommit, hreply, hopen⟩
        failed := fun failure hf => by rw [hfailure] at hf; cases hf
        rejected := fun _ _ _ hlast hne _ => absurd (hnotrejected hlast) hne
        conflict := fun _ hall => absurd hall hnotlost
        specified := by rw [hstatus']; simp
        revision := fun _ => hstatus'
        document := fun h => by
          refine ⟨hstatus', ?_⟩
          rw [hresult] at h
          unfold attachDocument at h
          split at h
          · rename_i hflag
            exact hflag.1
          · cases h }
  · have hsame : r op.index = { after op.index with document := none } := by
      rw [hresult, applyGroupResult_failed hreply hfailed.2]
      exact attachDocument_of_ne_applied hfailed.ne_applied.1
    exact
      { applied := fun h => by rw [hsame] at h; exact absurd h hfailed.ne_applied.1
        failed := fun failure hf => .inl ⟨w, reply, after, hcommit, hreply, by
          rw [hsame] at hf; exact hf⟩
        rejected := fun _ _ _ hlast hne _ => absurd (hnotrejected hlast) hne
        conflict := fun _ hall => absurd hall hnotlost
        specified := by rw [hsame]; exact hfailed.ne_applied.2
        revision := fun h => by rw [hsame] at h; simp [hrev] at h
        document := fun h => by rw [hsame] at h; cases h }

/-- The commit was answered with a failure or an unknown status. -/
theorem truthful_of_rejected (hclean : CleanOn g before)
    (heval : x.Evaluates g ctx stored before (some w) after) (hreply : reply.status ≠ .applied)
    (hpf : reply.status ≠ .preconditionFailed) (hop : op ∈ g.operations) :
    Truthful x g (.wrote w reply :: .evaluated ctx :: .snapshot stored :: es)
      (attachWriteDocument g.operations (applyWriteGroupResult g.operations after reply)
        w.document) op := by
  have hresult : ∀ op' ∈ g.operations, _ := fun op' hop' =>
    settled_result hnd after reply w.document hop'
  generalize attachWriteDocument g.operations (applyWriteGroupResult g.operations after reply)
    w.document = r at hresult ⊢
  have hsame : ∀ op' ∈ g.operations, r op'.index =
      applyWriteResult { after op'.index with document := none, failure := none } reply := by
    intro op' hop'
    rw [hresult op' hop', applyGroupResult_of_ne_applied hreply]
    exact attachDocument_of_ne_applied (applyWriteResult_failed hreply _).ne_applied.1
  have hfailed := applyWriteResult_failed hreply
    { after op.index with document := none, failure := none }
  have hfclean : (applyWriteResult { after op.index with document := none, failure := none }
      reply).Clean := applyWriteResult_clean hreply ⟨(heval.clean hclean op hop).1, rfl⟩
  have hfailure := applyWriteResult_failure hreply
    { after op.index with document := none, failure := none }
  exact
    { applied := fun h => absurd (hsame op hop ▸ h) hfailed.ne_applied.1
      failed := fun failure hf => by
        rw [hsame op hop, hfailure] at hf
        refine .inr (.inr ⟨.rejected rfl hreply hf, fun op' hop' => ?_⟩)
        rw [hsame op' hop', applyWriteResult_failure hreply]
        exact hf
      rejected := fun w' reply' rest hlast _ _ => by
        obtain ⟨hp, -⟩ := cons.inj hlast
        obtain ⟨-, rfl⟩ := Prod.mk.inj hp
        rw [hsame op hop]
        exact ⟨hfailed.ne_applied.1, hfailed.2, hfailure⟩
      conflict := fun _ hall => absurd (hall (w, reply) mem_cons_self) hpf
      specified := by rw [hsame op hop]; exact hfailed.ne_applied.2
      revision := fun h => by rw [hsame op hop, hfclean.1] at h; cases h
      document := fun h => by rw [hsame op hop, hfclean.2] at h; cases h }

theorem truthful_of_nothing {n : Nat} (hat : Attempts x g [] n es) (hn : n < x.maxMergeAttempts)
    (hclean : CleanOn g before) (heval : x.Evaluates g ctx stored before none after)
    (hop : op ∈ g.operations) :
    Truthful x g (.evaluated ctx :: .snapshot stored :: es) after op := by
  obtain ⟨⟨⟨hrev, hdoc⟩, -⟩, hfailed⟩ := heval.evaluated hnd hclean hop
  have hfailed := hfailed rfl
  exact
    { applied := fun h => absurd h hfailed.ne_applied.1
      failed := fun failure hf =>
        .inr (.inl ⟨after, ⟨ctx, stored, before, es, rfl, heval⟩, hf⟩)
      rejected := fun w reply rest hlast _ hpf => absurd (hat.not_rejected hlast) hpf
      conflict := fun hlen => absurd (hat.writes.1.symm.trans hlen) (by omega)
      specified := hfailed.ne_applied.2
      revision := fun h => by rw [hrev] at h; cases h
      document := fun h => by rw [hdoc] at h; cases h }

theorem Settlement.truthful (h : Settlement x g [] es r) (hop : op ∈ g.operations) :
    Truthful x g es r op := by
  cases h with
  | @answered n es ctx stored before after w reply hat hn hclean heval hreply =>
    by_cases happ : reply.status = .applied
    · exact truthful_of_applied hnd hclean heval happ hop
    · exact truthful_of_rejected hnd hclean heval happ hreply hop
  | nothing hat hn hclean heval => exact truthful_of_nothing hnd hat hn hclean heval hop
  | @refused n es ctx stored before after w err hat hn hclean heval herr =>
    have hne : (Storage.WriteResult.ofError err).status ≠ .applied := by
      simp [Storage.WriteResult.ofError]
    have hsame : ∀ op' ∈ g.operations, applyWriteGroupResult g.operations after (.ofError err)
        op'.index = applyGroupResult (.ofError err) (after op'.index) := fun op' hop' =>
      applyWriteGroupResult_of_mem hnd hop'
    obtain ⟨hc, hf⟩ := applyGroupResult_refused hne (heval.clean hclean op hop)
    have hshared : ∀ op' ∈ g.operations, (applyWriteGroupResult g.operations after
        (.ofError err) op'.index).failure = replyFailure (.ofError err) := fun op' hop' => by
      rw [hsame op' hop', applyGroupResult_of_ne_applied hne]
      exact applyWriteResult_failure hne _
    obtain ⟨failure, hfailure⟩ := Option.isSome_iff_exists.mp hf.2
    exact truthful_of_groupFailure hop hat.writes hn (.refused herr hfailure)
      (fun op' hop' => (hshared op' hop').trans hfailure) (hsame op hop ▸ hf) (hsame op hop ▸ hc)
  | @exhausted n es before err hat hn hclean =>
    have hsame : ∀ op' ∈ g.operations, updateEach (·.index)
        (fun _ => WriteExecution.exhaustedResult err) g.operations before op'.index =
          WriteExecution.exhaustedResult err (before op'.index) := fun op' hop' =>
      updateEach_of_mem hnd hop'
    refine truthful_of_groupFailure hop hat.writes hn (.exhausted err) (fun op' hop' => ?_) ?_ ?_
    · rw [hsame op' hop']
      rfl
    · rw [hsame op hop]
      exact setWriteFailure_failed _ _ _ _
    · rw [hsame op hop]
      exact hclean op hop
  | @conflict es before hat hclean =>
    have hsame : ∀ op' ∈ g.operations, updateEach (·.index)
        (fun _ => WriteExecution.conflictResult) g.operations before op'.index =
          WriteExecution.conflictResult (before op'.index) := fun op' hop' =>
      updateEach_of_mem hnd hop'
    exact
      { applied := fun h => by rw [hsame op hop] at h; cases h
        failed := fun failure hf => by
          rw [hsame op hop] at hf
          cases hf
          refine .inr (.inr ⟨.conflict, fun op' hop' => ?_⟩)
          rw [hsame op' hop']
          rfl
        rejected := fun w reply rest hlast _ hpf => absurd (hat.not_rejected hlast) hpf
        conflict := fun _ _ => by
          rw [hsame op hop]
          exact ⟨rfl, _, rfl, rfl, rfl⟩
        specified := by rw [hsame op hop]; simp [WriteExecution.conflictResult]
        revision := fun h => by
          rw [hsame op hop] at h
          rw [show (WriteExecution.conflictResult (before op.index)).revision = none from
            (hclean op hop).1] at h
          cases h
        document := fun h => by
          rw [hsame op hop] at h
          rw [show (WriteExecution.conflictResult (before op.index)).document = none from
            (hclean op hop).2] at h
          cases h }

end

theorem Truthful.agree {r' : Results} (hagree : Agree g r r') (hop : op ∈ g.operations)
    (h : Truthful x g es r' op) : Truthful x g es r op := by
  have hsame := hagree op hop
  obtain ⟨h₁, h₂, h₃, h₄, h₅, h₆, h₇⟩ := h
  rw [← hsame] at h₁ h₂ h₃ h₄ h₅ h₆ h₇
  refine ⟨h₁, fun failure hf => ?_, h₃, h₄, h₅, h₆, h₇⟩
  rcases h₂ failure hf with h | h | ⟨h, hall⟩
  · exact .inl h
  · exact .inr (.inl h)
  · exact .inr (.inr ⟨h, fun op' hop' => (congrArg _ (hagree op' hop')).trans (hall op' hop')⟩)

theorem Settlement.unpublished {start : History} (h : Settlement x g start es r) :
    Unpublished start es := by
  cases h with
  | answered hat =>
    exact ((hat.unpublished.cons (by simp)).cons (by simp)).cons (by simp)
  | nothing hat => exact (hat.unpublished.cons (by simp)).cons (by simp)
  | refused hat => exact (hat.unpublished.cons (by simp)).cons (by simp)
  | exhausted hat => exact hat.unpublished
  | conflict hat => exact hat.unpublished

theorem Unpublished.publications (h : Unpublished [] es) : publications es = [] := by
  obtain ⟨t, rfl, ht⟩ := h
  refine filterMap_eq_nil_iff.mpr fun e he => ?_
  rw [append_nil] at he
  cases e with
  | published results => exact absurd rfl (ht _ he results)
  | _ => rfl

end Reading

/-! ## Whole executions -/

/-- Everything about one group. -/
def Focus.of (g : WriteGroup) : Focus := ⟨g.address, g.operations.map (·.index)⟩

theorem Focus.of_holds (g : WriteGroup) : (Focus.of g).Holds g :=
  ⟨rfl, fun _ hop => mem_map_of_mem hop⟩

theorem oneGroup_of_pairwise {groups : List WriteGroup}
    (h : groups.Pairwise fun g g' => g.address ≠ g'.address ∧
      ∀ op ∈ g.operations, ∀ op' ∈ g'.operations, op.index ≠ op'.index) (hg : g ∈ groups) :
    OneGroup g (Focus.of g) groups := by
  induction groups with
  | nil => cases hg
  | cons g' rest ih =>
    obtain ⟨hhead, hrest⟩ := pairwise_cons.mp h
    rcases mem_cons.mp hg with rfl | hg
    · refine .here rfl fun g'' hg'' => ⟨(hhead g'' hg'').1.symm, fun op hop hmem => ?_⟩
      obtain ⟨o, ho, hi⟩ := mem_map.mp hmem
      exact (hhead g'' hg'').2 o ho op hop hi
    · refine .there ⟨(hhead g hg).1, fun op hop hmem => ?_⟩ (ih hrest hg)
      obtain ⟨o, ho, hi⟩ := mem_map.mp hmem
      exact (hhead g hg).2 op hop o ho hi.symm

/-- A statement about what the focus sees holds of every run. -/
theorem runs_history {α : Type} {y : ServerM α} {f : Focus}
    {Q : Fallible α → ExecState → History → Prop} {s s' : ExecState} {h' : Log}
    {r : Fallible α} (hrun : Runs (anyLog Call Reply) y s [] r s' h')
    (hy : wp (observer f.record fun _ _ => True) Q y s []) : Q r s' (f.history h') := by
  have hlog := wp_log (h := []) hy
  exact wp_sound (Q := fun r s h => Q r s (f.history h)) hrun hlog

/-- When `executeConditionalWrites` returns, every operation of every group
was given its result exactly once, and the result is what the storage's
answers justify. -/
theorem executeConditionalWrites_truthful (x : WriteExecution) (fuel : Nat)
    {groups : List WriteGroup} (hwf : WellFormed groups) {s s' : ExecState} {h' : Log}
    (hfresh : ∀ g ∈ groups, CleanOn g s.results)
    (hrun : Runs (anyLog Call Reply) (x.executeConditionalWrites fuel groups) s [] (.ok ()) s' h')
    (g : WriteGroup) (hg : g ∈ groups) :
    ∃ es, (Focus.of g).history h' = publication g s'.results :: es ∧ publications es = [] ∧
      ∀ op ∈ g.operations, Truthful x g es s'.results op := by
  have hspec : Permits x g [] (Focus.of g) fun _ _ => True := fun _ _ _ => trivial
  have hset : Settled x g [] s'.results ((Focus.of g).history h') :=
    runs_history hrun (executeConditionalWrites_focus (Focus.of_holds g) hspec fuel
      (oneGroup_of_pairwise hwf.apart hg) (hfresh g hg))
  obtain ⟨es, r', hsettle, hagree, hes⟩ := hset
  refine ⟨es, by rw [hes, hagree.publication], hsettle.unpublished.publications, fun op hop => ?_⟩
  exact (hsettle.truthful (hwf.distinct g hg) hop).agree hagree hop

/-- A store that takes one record and rejects the first commit of the other; the
second one fails. -/
def contested (w : MemoryWorld) : (c : Call) → Reply c × MemoryWorld
  | .write ops _ =>
    let full : GoError := .text (lit "disk full")
    let other := if w.writes = 0 then ⟨.preconditionFailed, [], none⟩ else .ofError full
    (.ok (ops.map fun op => if op.address = ⟨[97]⟩ then other else ⟨.applied, [1], none⟩),
      { w with writes := w.writes + 1 })
  | c => w.handle c

/-- Two groups: one is applied at once, the other is tried again and fails. -/
theorem executeConditionalWrites_truthful_merge :
    let x : WriteExecution := ⟨1000, 2, none, false, false, ⟨0, 0⟩⟩
    let merge (index : Nat) (byte : UInt8) : WriteGroup :=
      .single ⟨index, ⟨[byte]⟩, false, .merge ⟨⟨.json, [49]⟩, fun _ _ incoming => .ok incoming⟩⟩
    let groups := [merge 0 97, merge 1 98]
    ∃ s' h', Runs (anyLog Call Reply) (x.executeConditionalWrites 1 groups) (.initial x) []
        (.ok ()) s' h' ∧
      (s'.results 0).status = .failed ∧ (s'.results 1).status = .applied ∧
      ∀ g ∈ groups, ∃ es, (Focus.of g).history h' = publication g s'.results :: es ∧
        publications es = [] ∧ ∀ op ∈ g.operations, Truthful x g es s'.results op := by
  intro x merge groups
  have hends : (Exec.run contested (x.executeConditionalWrites 1 groups) (.initial x)
      ⟨.empty, 0, 0⟩).map (fun out =>
        (out.1.isOk, (out.2.1.results 0).status, (out.2.1.results 1).status)) =
      some (true, .failed, .applied) := by decide +kernel +zetaReduce
  obtain ⟨⟨_ | _, s', w'⟩, hcompute, hout⟩ := Option.map_eq_some_iff.mp hends
  · cases hout
  simp only [Prod.mk.injEq] at hout
  obtain ⟨h', hrun⟩ := runs_of_run hcompute []
  have hwf : WellFormed groups := ⟨by simp [WriteGroup.Distinct, groups, merge, WriteGroup.single],
    by simp [groups, merge, WriteGroup.single]⟩
  refine ⟨s', h', hrun, hout.2.1, hout.2.2, fun g hg => ?_⟩
  exact executeConditionalWrites_truthful x 1 hwf (fun _ _ _ _ => ⟨rfl, rfl⟩) hrun g hg

end Sink
