import Sink.WriteGroup

/-!
# What evaluating a group does

One operation of a group either yields a document or a failure, and which
one depends on the working snapshot only. `outcome` names that answer;
`prepareOperation_eq` is the only place where the evaluation of an
operation is unfolded. A fold over a group is then a walk of the snapshot
through the outcomes, and the results of a group can be read off one
operation at a time.
-/

namespace Sink

open Interact Function List

variable {done : Bool} {op : ParsedWrite} {current : Storage.ReadResult}
  {result result' : WriteResult} {stored : Storage.WriteResult} {st : FoldState}
  {ops : List ParsedWrite} {merge : ParsedMerge} {condition : Storage.Precondition}

/-- The answer of one evaluation: a new document, or a status with its
failure. -/
abbrev Outcome := Except (WriteStatus × Option Failure) Document

/-- What evaluating the operation against the snapshot yields. -/
def outcome (done : Bool) (op : ParsedWrite) (current : Storage.ReadResult) : Outcome :=
  match prepareOperation done op current (.new op.index) with
  | (some merged, _) => .ok merged.document
  | (none, result) => .error (result.status, result.failure)

/-- The precondition a commit evaluated on this snapshot carries. -/
def Storage.ReadResult.precondition (stored : Storage.ReadResult) : Storage.Precondition :=
  snapshotPrecondition (decide (stored.status = .found)) stored.revision

def Storage.ReadResult.after (current : Storage.ReadResult) : Outcome → Storage.ReadResult
  | .ok document => advance current document
  | .error _ => current

def WriteResult.record (result : WriteResult) : Outcome → WriteResult
  | .ok _ => result
  | .error (status, failure) => { result with status, failure }

/-- Record what a preparation of a blank result answered in another result. -/
def transfer (prepared : Option Storage.WriteOperation × WriteResult) (result : WriteResult) :
    Option Storage.WriteOperation × WriteResult :=
  match prepared with
  | (some merged, _) => (some merged, result)
  | (none, blank) => (none, { result with status := blank.status, failure := blank.failure })

theorem runMerge_eq (done : Bool) (op : ParsedWrite) (merge : ParsedMerge)
    (current : Option Document) (condition : Storage.Precondition) (result : WriteResult) :
    runMerge done op merge current condition result =
      transfer (runMerge done op merge current condition (.new op.index)) result := by
  unfold runMerge
  cases merge.merger done current merge.incoming with
  | error e => rfl
  | ok merged => by_cases h : merged.payload.isEmpty = true <;> simp only [h] <;> rfl

theorem prepareOperation_transfer (done : Bool) (op : ParsedWrite)
    (current : Storage.ReadResult) (result : WriteResult) :
    prepareOperation done op current result =
      transfer (prepareOperation done op current (.new op.index)) result := by
  unfold prepareOperation
  cases op.action with
  | put put =>
    simp only [prepareFoldedPut]
    split
    · rfl
    · split <;> rfl
  | merge merge =>
    simp only [prepareMergeOperation]
    cases current.status with
    | found => exact runMerge_eq _ _ _ _ _ _
    | notFound => exact runMerge_eq _ _ _ _ _ _
    | failed => rfl
    | unsupported value => rfl

variable {merged : Storage.WriteOperation}

theorem runMerge_some {current : Option Document}
    (h : runMerge done op merge current condition result = (some merged, result')) :
    merged.address = op.address ∧ merged.precondition = condition := by
  unfold runMerge at h
  split at h
  · cases h
  split at h
  · cases h
  obtain ⟨h, -⟩ := Prod.mk.inj h
  cases h
  exact ⟨rfl, rfl⟩

/-- A successful evaluation keeps the address and asks for the snapshot it
was evaluated on. -/
theorem prepareOperation_some
    (h : prepareOperation done op current result = (some merged, result')) :
    merged.address = op.address ∧ merged.precondition = current.precondition := by
  unfold prepareOperation at h
  split at h
  · dsimp only [prepareFoldedPut] at h
    split at h
    · cases h
    split at h
    · cases h
    obtain ⟨h, -⟩ := Prod.mk.inj h
    cases h
    exact ⟨rfl, rfl⟩
  · unfold prepareMergeOperation at h
    split at h
    · rename_i hfound
      obtain ⟨ha, hp⟩ := runMerge_some h
      refine ⟨ha, hp.trans ?_⟩
      simp only [Storage.ReadResult.precondition, hfound, decide_true]
    · rename_i hmissing
      obtain ⟨ha, hp⟩ := runMerge_some h
      refine ⟨ha, hp.trans ?_⟩
      simp [Storage.ReadResult.precondition, hmissing, snapshotPrecondition]
    · cases h
    · cases h

theorem prepareOperation_eq (done : Bool) (op : ParsedWrite) (current : Storage.ReadResult)
    (result : WriteResult) :
    prepareOperation done op current result =
      match outcome done op current with
      | .ok document => (some ⟨op.address, document, current.precondition⟩, result)
      | .error e => (none, result.record (.error e)) := by
  rw [prepareOperation_transfer]
  unfold outcome
  cases hprep : prepareOperation done op current (.new op.index) with
  | mk merged blank =>
    cases merged with
    | none => rfl
    | some merged =>
      obtain ⟨ha, hp⟩ := prepareOperation_some hprep
      simp only [transfer, ← ha, ← hp]

/-- A failing status and a failure always come together. -/
def WriteResult.Failed (result : WriteResult) : Prop :=
  (result.status = .failed ∨ result.status = .preconditionFailed) ∧ result.failure.isSome

theorem setWriteFailure_failed (result : WriteResult) (code : FailureCode)
    (err : Option GoError) (retryable : Bool) :
    (setWriteFailure result code err retryable).Failed := by
  refine ⟨?_, rfl⟩
  simp only [setWriteFailure]
  split
  · exact .inr rfl
  · exact .inl rfl

theorem applyWriteResult_failed (h : stored.status ≠ .applied) (result : WriteResult) :
    (applyWriteResult result stored).Failed := by
  unfold applyWriteResult
  split
  · exact absurd ‹_› h
  · exact ⟨.inr rfl, rfl⟩
  · exact setWriteFailure_failed _ _ _ _
  · exact setWriteFailure_failed _ _ _ _

theorem prepareFoldedPut_failed {put : ParsedPut}
    (h : prepareFoldedPut op put current result = (none, result')) : result'.Failed := by
  dsimp only [prepareFoldedPut] at h
  split at h
  · obtain ⟨-, rfl⟩ := Prod.mk.inj h
    exact setWriteFailure_failed _ _ _ _
  split at h
  · obtain ⟨-, rfl⟩ := Prod.mk.inj h
    exact applyWriteResult_failed (by simp) _
  · cases h

theorem runMerge_failed {current : Option Document}
    (h : runMerge done op merge current condition result = (none, result')) : result'.Failed := by
  unfold runMerge at h
  split at h
  · obtain ⟨-, rfl⟩ := Prod.mk.inj h
    exact setWriteFailure_failed _ _ _ _
  split at h
  · obtain ⟨-, rfl⟩ := Prod.mk.inj h
    exact setWriteFailure_failed _ _ _ _
  · cases h

theorem prepareOperation_failed (h : prepareOperation done op current result = (none, result')) :
    result'.Failed := by
  unfold prepareOperation at h
  split at h
  · exact prepareFoldedPut_failed h
  unfold prepareMergeOperation at h
  split at h
  · exact runMerge_failed h
  · exact runMerge_failed h
  · obtain ⟨-, rfl⟩ := Prod.mk.inj h
    exact setWriteFailure_failed _ _ _ _
  · obtain ⟨-, rfl⟩ := Prod.mk.inj h
    exact setWriteFailure_failed _ _ _ _

theorem outcome_error {e : WriteStatus × Option Failure} (h : outcome done op current = .error e) :
    (e.1 = .failed ∨ e.1 = .preconditionFailed) ∧ e.2.isSome := by
  have heq := prepareOperation_eq done op current (.new op.index)
  rw [h] at heq
  exact prepareOperation_failed heq

/-! ## Folding -/

/-- Combine the candidate collected so far with a later one. -/
def mergeCandidates (candidate later : Option Storage.WriteOperation) :
    Option Storage.WriteOperation :=
  match later with
  | none => candidate
  | some op => some (extendCandidate candidate op)

@[simp] theorem mergeCandidates_none_left (later : Option Storage.WriteOperation) :
    mergeCandidates none later = later := by
  cases later <;> rfl

theorem mergeCandidates_assoc (a b c : Option Storage.WriteOperation) :
    mergeCandidates (mergeCandidates a b) c = mergeCandidates a (mergeCandidates b c) := by
  cases a <;> cases b <;> cases c <;> rfl

theorem mergeCandidates_isSome (a b : Option Storage.WriteOperation) :
    (mergeCandidates a b).isSome = (a.isSome || b.isSome) := by
  cases a <;> cases b <;> rfl

/-- The write that would commit this outcome alone. -/
def candidateOf (op : ParsedWrite) (current : Storage.ReadResult) :
    Outcome → Option Storage.WriteOperation
  | .ok document => some ⟨op.address, document, current.precondition⟩
  | .error _ => none

theorem foldOperation_eq (ctx : Nat → Bool) (st : FoldState) (op : ParsedWrite) :
    foldOperation ctx st op =
      let o := outcome (ctx op.index) op st.current
      { candidate := mergeCandidates st.candidate (candidateOf op st.current o)
        current := st.current.after o
        results := update st.results op.index
          ((st.results op.index).reset.record o) } := by
  unfold foldOperation
  rw [prepareOperation_eq]
  cases outcome (ctx op.index) op st.current <;> rfl

@[simp] theorem foldOperations_nil (ctx : Nat → Bool) (st : FoldState) :
    foldOperations ctx [] st = st := rfl

@[simp] theorem foldOperations_cons (ctx : Nat → Bool) (op : ParsedWrite)
    (ops : List ParsedWrite) (st : FoldState) :
    foldOperations ctx (op :: ops) st = foldOperations ctx ops (foldOperation ctx st op) := rfl

theorem foldOperations_append (ctx : Nat → Bool) (ops ops' : List ParsedWrite) (st : FoldState) :
    foldOperations ctx (ops ++ ops') st = foldOperations ctx ops' (foldOperations ctx ops st) :=
  foldl_append

/-- The snapshot after all operations. -/
def afterAll (ctx : Nat → Bool) : List ParsedWrite → Storage.ReadResult → Storage.ReadResult
  | [], current => current
  | op :: ops, current =>
    afterAll ctx ops (current.after (outcome (ctx op.index) op current))

section

variable (ctx : Nat → Bool)

include ctx

section

variable (ops : List ParsedWrite)

theorem foldOperations_current (st : FoldState) :
    (foldOperations ctx ops st).current = afterAll ctx ops st.current := by
  induction ops generalizing st with
  | nil => rfl
  | cons op ops ih => rw [foldOperations_cons, ih, foldOperation_eq, afterAll]

/-- The candidate of a fold does not depend on the results, and an earlier
candidate is only extended. -/
theorem foldOperations_candidate (candidate : Option Storage.WriteOperation)
    (current : Storage.ReadResult) (results results' : Results) :
    (foldOperations ctx ops ⟨candidate, current, results⟩).candidate =
      mergeCandidates candidate (foldOperations ctx ops ⟨none, current, results'⟩).candidate := by
  induction ops generalizing candidate current results results' with
  | nil => rfl
  | cons op ops ih =>
    simp only [foldOperations_cons, foldOperation_eq]
    rw [ih (mergeCandidates candidate _) _ _ results', ih (mergeCandidates none _) _ _ results',
      mergeCandidates_none_left, mergeCandidates_assoc]

/-- After a fold that produced a candidate the snapshot holds its document;
otherwise the snapshot is untouched. -/
theorem afterAll_eq (current : Storage.ReadResult) (results : Results) :
    afterAll ctx ops current =
      match (foldOperations ctx ops ⟨none, current, results⟩).candidate with
      | none => current
      | some op => advance current op.document := by
  induction ops generalizing current results with
  | nil => rfl
  | cons op ops ih =>
    simp only [afterAll, foldOperations_cons, foldOperation_eq]
    rw [foldOperations_candidate ctx ops _ _ _ results, ih _ results]
    cases outcome (ctx op.index) op current <;>
      cases (foldOperations ctx ops ⟨none, _, results⟩).candidate <;> rfl

theorem foldOperations_results_congr {st' : FoldState} (hcur : st.current = st'.current) {i : Nat}
    (hi : st.results i = st'.results i) :
    (foldOperations ctx ops st).results i = (foldOperations ctx ops st').results i := by
  induction ops generalizing st st' with
  | nil => exact hi
  | cons op ops ih =>
    simp only [foldOperations_cons, foldOperation_eq]
    refine ih (by simp only [hcur]) ?_
    simp only [hcur]
    by_cases h : i = op.index
    · subst h
      simp only [update_self, hi]
    · simp only [update_of_ne h, hi]

theorem foldOperations_results_candidate (candidate candidate' : Option Storage.WriteOperation)
    (current : Storage.ReadResult) (results : Results) :
    (foldOperations ctx ops ⟨candidate, current, results⟩).results =
      (foldOperations ctx ops ⟨candidate', current, results⟩).results := by
  funext i
  apply foldOperations_results_congr <;> rfl

theorem foldOperations_results_of_notMem {i : Nat} (hi : ∀ op ∈ ops, op.index ≠ i) :
    (foldOperations ctx ops st).results i = st.results i := by
  induction ops generalizing st with
  | nil => rfl
  | cons op ops ih =>
    rw [foldOperations_cons, ih (forall_mem_cons.mp hi).2, foldOperation_eq]
    exact update_of_ne (hi op mem_cons_self).symm _ _

end

end

/-! ## Results of an evaluation -/

/-- Nothing of a commit is recorded. -/
def WriteResult.Clean (result : WriteResult) : Prop :=
  result.revision = none ∧ result.document = none

/-- A result between evaluation and commit: still open, or failed. -/
def WriteResult.Evaluated (result : WriteResult) : Prop :=
  result.Clean ∧ ((result.status = .unspecified ∧ result.failure = none) ∨ result.Failed)

theorem WriteResult.record_evaluated (result : WriteResult) (done : Bool) (op : ParsedWrite)
    (current : Storage.ReadResult) : (result.reset.record (outcome done op current)).Evaluated := by
  cases h : outcome done op current with
  | ok document => exact ⟨⟨rfl, rfl⟩, .inl ⟨rfl, rfl⟩⟩
  | error e => exact ⟨⟨rfl, rfl⟩, .inr (outcome_error h)⟩

/-- A property of every recorded outcome holds of the result of every
operation of a fold. -/
theorem foldOperations_results (ctx : Nat → Bool) {P : WriteResult → Prop}
    (hP : ∀ result op current,
      P ((result : WriteResult).reset.record (outcome (ctx op.index) op current))) {i : Nat}
    (hi : (∃ op ∈ ops, op.index = i) ∨ P (st.results i)) :
    P ((foldOperations ctx ops st).results i) := by
  induction ops generalizing st with
  | nil => simpa using hi
  | cons op ops ih =>
    refine ih ?_
    rw [foldOperation_eq]
    by_cases h : i = op.index
    · subst h
      right
      simp only [update_self]
      exact hP _ _ _
    · simp only [update_of_ne h]
      rcases hi with ⟨o, ho, rfl⟩ | hi
      · rcases mem_cons.mp ho with rfl | ho
        · exact absurd rfl h
        · exact .inl ⟨o, ho, rfl⟩
      · exact .inr hi

theorem foldOperations_evaluated (ctx : Nat → Bool) (st : FoldState) (hop : op ∈ ops) :
    ((foldOperations ctx ops st).results op.index).Evaluated :=
  foldOperations_results ctx (fun _ _ _ => WriteResult.record_evaluated _ _ _ _)
    (.inl ⟨op, hop, rfl⟩)

theorem foldOperations_candidate_isSome (ctx : Nat → Bool) (hnd : (ops.map (·.index)).Nodup)
    (current : Storage.ReadResult) (results : Results) :
    (foldOperations ctx ops ⟨none, current, results⟩).candidate.isSome ↔
      ∃ op ∈ ops,
        ((foldOperations ctx ops ⟨none, current, results⟩).results op.index).failure = none := by
  induction ops generalizing current results with
  | nil => simp
  | cons op ops ih =>
    obtain ⟨hop, hnd⟩ := nodup_cons.mp hnd
    have hne : ∀ o ∈ ops, o.index ≠ op.index := fun o ho h =>
      hop (mem_map.mpr ⟨o, ho, h⟩)
    simp only [foldOperations_cons, foldOperation_eq, exists_mem_cons_iff]
    rw [foldOperations_results_of_notMem ctx ops hne]
    rw [foldOperations_candidate ctx ops _ _ _ (update results op.index
      ((results op.index).reset.record (outcome (ctx op.index) op current))),
      mergeCandidates_isSome, Bool.or_eq_true, ih hnd]
    refine or_congr ?_ ?_
    · cases h : outcome (ctx op.index) op current with
      | ok document => simp [candidateOf, WriteResult.record, WriteResult.reset]
      | error e =>
        obtain ⟨-, he⟩ := outcome_error h
        obtain ⟨f, hf⟩ := Option.isSome_iff_exists.mp he
        simp [candidateOf, WriteResult.record, hf]
    · refine exists_congr fun o => and_congr_right fun _ => ?_
      rw [foldOperations_results_candidate ctx ops none]

variable {results : Results}

/-- The candidate of a fold keeps the operations' address and asks for the
snapshot the fold started from. -/
theorem foldOperations_candidate_shape (ctx : Nat → Bool) {w : Storage.WriteOperation}
    (h : (foldOperations ctx ops ⟨none, current, results⟩).candidate = some w) :
    (∃ op ∈ ops, w.address = op.address) ∧ w.precondition = current.precondition := by
  induction ops generalizing current results with
  | nil => cases h
  | cons op ops ih =>
    simp only [foldOperations_cons, foldOperation_eq] at h
    rw [foldOperations_candidate ctx ops _ _ _ results, mergeCandidates_none_left] at h
    cases ho : outcome (ctx op.index) op current with
    | error e =>
      rw [ho] at h
      simp only [candidateOf, mergeCandidates_none_left, Storage.ReadResult.after] at h
      obtain ⟨⟨o, hmem, ha⟩, hp⟩ := ih h
      exact ⟨⟨o, mem_cons_of_mem _ hmem, ha⟩, hp⟩
    | ok document =>
      rw [ho] at h
      refine ⟨⟨op, mem_cons_self, ?_⟩, ?_⟩ <;>
        · revert h
          cases (foldOperations ctx ops ⟨none, _, results⟩).candidate <;>
            (rintro ⟨⟩; rfl)

/-! ## Indexes -/

theorem applyWriteResult_operationIndex (result : WriteResult) (stored : Storage.WriteResult) :
    (applyWriteResult result stored).operationIndex = result.operationIndex := by
  unfold applyWriteResult
  split <;> rfl

theorem applyGroupResult_operationIndex (stored : Storage.WriteResult) (result : WriteResult) :
    (applyGroupResult stored result).operationIndex = result.operationIndex := by
  unfold applyGroupResult
  dsimp only
  split
  · rfl
  · exact applyWriteResult_operationIndex _ _

theorem attachDocument_operationIndex (flag : Bool) (document : Document) (result : WriteResult) :
    (attachDocument flag document result).operationIndex = result.operationIndex := by
  unfold attachDocument
  split <;> rfl

theorem foldOperations_operationIndex (ctx : Nat → Bool) (ops : List ParsedWrite)
    (st : FoldState) (i : Nat) :
    ((foldOperations ctx ops st).results i).operationIndex = (st.results i).operationIndex := by
  induction ops generalizing st with
  | nil => rfl
  | cons op ops ih =>
    rw [foldOperations_cons, ih, foldOperation_eq]
    by_cases h : i = op.index
    · subst h
      simp only [update_self]
      cases outcome (ctx op.index) op st.current <;> rfl
    · simp only [update_of_ne h]

/-! ## Settling a group -/

theorem applyGroupResult_of_ne_applied (h : stored.status ≠ .applied) (result : WriteResult) :
    applyGroupResult stored result =
      applyWriteResult { result with document := none, failure := none } stored := by
  simp [applyGroupResult, h]

/-- A failure the evaluation reported survives an applied commit. -/
theorem applyGroupResult_failed (h : stored.status = .applied) (hf : result.failure.isSome) :
    applyGroupResult stored result = { result with document := none } := by
  simp [applyGroupResult, h, hf]

theorem applyGroupResult_succeeded (h : stored.status = .applied) (hf : result.failure = none) :
    applyGroupResult stored result =
      { result with status := .applied, revision := some stored.revision, document := none } := by
  simp [applyGroupResult, h, hf, applyWriteResult]

theorem applyWriteGroupResult_of_notMem {i : Nat} (hi : ∀ op ∈ ops, op.index ≠ i) :
    applyWriteGroupResult ops results stored i = results i :=
  updateEach_of_notMem hi

theorem applyWriteGroupResult_of_mem (hnd : (ops.map (·.index)).Nodup) (hop : op ∈ ops) :
    applyWriteGroupResult ops results stored op.index =
      applyGroupResult stored (results op.index) :=
  updateEach_of_mem hnd hop

/-! ## Direct groups -/

theorem WriteGroup.directPut_cases {g : WriteGroup} (hd : g.directPut = true) :
    (∃ op put, g.operations = [op] ∧ op.action = .put put) ∨
      ∀ op ∈ g.operations, WriteGroup.isUpsert op = true := by
  unfold WriteGroup.directPut at hd
  split at hd
  · rename_i op hops
    left
    unfold ParsedWrite.put? at hd
    cases haction : op.action with
    | put put => exact ⟨op, put, hops, haction⟩
    | merge merge => rw [haction] at hd; cases hd
  · exact .inr (all_eq_true.mp hd)

theorem WriteGroup.lastPut_of_directPut {g : WriteGroup} (hd : g.directPut = true) :
    ∃ put, g.lastPut? = some put := by
  unfold WriteGroup.lastPut?
  rcases g.directPut_cases hd with ⟨op, put, hops, hput⟩ | hups
  · refine ⟨put, ?_⟩
    simp only [hops, getLast_singleton, ParsedWrite.put?, hput]
  have hup := hups _ (getLast_mem g.nonempty)
  unfold WriteGroup.isUpsert at hup
  split at hup
  · rename_i put hput
    exact ⟨put, by simp only [ParsedWrite.put?, hput]⟩
  · cases hup

end Sink
