import Sink.ChainOutcome
import Sink.ChainWaves
import Sink.Folding

/-!
# What a commit does to the record

A proposed write, once the store applies it, has the effect of running the
operations of its group one after another on the record the write replaced
(`AppliesTo`). For an evaluated group this rests on one fact about the
store: if the record still has the snapshot's revision, it still has the
snapshot's document.

The second half counts: how many commits the history of a chain contains
for each of its parts.
-/

namespace Sink

open Interact List Memory

variable {ops : List ParsedWrite} {op : ParsedWrite} {current : Storage.ReadResult}
  {x : WriteExecution} {g : WriteGroup} {stored : Storage.ReadResult}
  {record : Option Record} {w : Storage.WriteOperation}

/-! ## Sequential effect -/

/-- What reading a record in this state shows of it. -/
def present : Option Document → Storage.ReadResult
  | none => ⟨.notFound, .empty, [], none⟩
  | some document => ⟨.found, document, [], none⟩

/-- The operations that take part in an evaluation: all of them, or those of
the runs that no caller's quota refused. -/
def WriteExecution.Admits (x : WriteExecution) (g : WriteGroup) (kept : List ParsedWrite) : Prop :=
  match x.budgets with
  | none => kept = g.operations
  | some _ => ∃ verdicts,
      kept = keptOperations (ownerRuns (ownerOf x.budgets) g.operations) verdicts

/-- The operations that answer with a document when they run in order. -/
def effective (ctx : Nat → Bool) : List ParsedWrite → Storage.ReadResult → List ParsedWrite
  | [], _ => []
  | op :: ops, current =>
    match outcome (ctx op.index) op current with
    | .ok document => op :: effective ctx ops (current.after (.ok document))
    | .error e => effective ctx ops (current.after (.error e))

/-- Running the group's operations in order takes the record from one
document to the other, and the operations of `took` are those that had a
part in it. -/
def AppliesTo (x : WriteExecution) (g : WriteGroup) (before : Option Document) (after : Document)
    (took : ParsedWrite → Prop) : Prop :=
  ∃ ctx kept, x.Admits g kept ∧ (afterAll ctx kept (present before)).status = .found ∧
    (afterAll ctx kept (present before)).document = after ∧
    ∀ op ∈ g.operations, took op ↔ op ∈ effective ctx kept (present before)

theorem effective_subset (ctx : Nat → Bool) (ops : List ParsedWrite)
    (current : Storage.ReadResult) : effective ctx ops current ⊆ ops := by
  induction ops generalizing current with
  | nil => exact Subset.refl _
  | cons op ops ih =>
    unfold effective
    split
    · exact cons_subset_cons op (ih _)
    · exact subset_cons_of_subset op (ih _)

theorem SameDocument.effective {a b : Storage.ReadResult} (h : SameDocument a b)
    (ctx : Nat → Bool) (ops : List ParsedWrite) : effective ctx ops a = effective ctx ops b := by
  induction ops generalizing a b with
  | nil => rfl
  | cons op ops ih =>
    simp only [Sink.effective, h.outcome]
    split <;> rw [ih (h.after _)]

theorem foldOperations_effective (ctx : Nat → Bool) (hnd : (ops.map (·.index)).Nodup)
    (st : FoldState) (hop : op ∈ ops) :
    ((foldOperations ctx ops st).results op.index).failure = none ↔
      op ∈ effective ctx ops st.current := by
  induction ops generalizing st with
  | nil => cases hop
  | cons o ops ih =>
    obtain ⟨hhead, hnd⟩ := nodup_cons.mp hnd
    have hne : ∀ o' ∈ ops, o'.index ≠ o.index := fun o' ho' h =>
      hhead (mem_map.mpr ⟨o', ho', h⟩)
    rw [foldOperations_cons, foldOperation_eq]
    rcases mem_cons.mp hop with rfl | hop
    · rw [foldOperations_results_of_notMem ctx ops hne]
      simp only [Function.update_self, effective]
      cases ho : outcome (ctx op.index) op st.current with
      | ok document => simp [WriteResult.record, WriteResult.reset]
      | error e =>
        have hfailed := (outcome_error ho).2
        have hout : op ∉ effective ctx ops (st.current.after (.error e)) := fun h =>
          hne op (effective_subset ctx ops _ h) rfl
        simp only [WriteResult.record, hout, iff_false]
        intro hnone
        rw [hnone] at hfailed
        cases hfailed
    · rw [ih hnd _ hop]
      have hdiff : op ≠ o := fun h => hne op hop (by rw [h])
      cases ho : outcome (ctx o.index) o st.current <;>
        simp only [effective, ho, mem_cons, hdiff, false_or]

/-- If every operation reports success, every one had a part in it. -/
theorem effective_of_applied (ctx : Nat → Bool)
    (h : (outcomes ctx ops current).map reported = ops.map fun _ => (.applied, none)) :
    effective ctx ops current = ops := by
  induction ops generalizing current with
  | nil => rfl
  | cons op ops ih =>
    simp only [outcomes, map_cons, cons.injEq] at h
    obtain ⟨hhead, htail⟩ := h
    cases ho : outcome (ctx op.index) op current with
    | ok document =>
      rw [ho] at htail
      simp only [effective, ho, ih htail]
    | error e =>
      have hfailed := (outcome_error ho).2
      rw [ho] at hhead
      obtain rfl : e = (.applied, none) := hhead
      cases hfailed

theorem keptOperations_all (runs : List (Nat × List ParsedWrite)) :
    keptOperations runs (runs.map fun _ => .kept) = runOperations runs := by
  induction runs with
  | nil => rfl
  | cons run runs ih =>
    simp only [keptOperations, map_cons, selectRuns, decide_true, if_true] at ih ⊢
    rw [ih]
    rfl

theorem WriteExecution.admits_all (x : WriteExecution) (g : WriteGroup) :
    x.Admits g g.operations := by
  unfold WriteExecution.Admits
  split
  · rfl
  · exact ⟨_, by rw [keptOperations_all, runOperations_ownerRuns]⟩

theorem prepareRuns_length (ctx : Nat → Bool) (runs : List (Nat × List ParsedWrite))
    (st : BatchedState) : (prepareRuns ctx runs st).1.length = runs.length := by
  induction runs generalizing st with
  | nil => rfl
  | cons run runs ih => rw [prepareRuns_cons, length_cons, ih, length_cons]

theorem mem_kept_or_refused {runs verdicts}
    (hlen : verdicts.length = runs.length) (hop : op ∈ runOperations runs) :
    op ∈ keptOperations runs verdicts ∨ op ∈ refusedOperations runs verdicts := by
  induction runs generalizing verdicts with
  | nil => cases hop
  | cons run runs ih =>
    cases verdicts with
    | nil => cases hlen
    | cons verdict verdicts =>
      have htail := @ih verdicts (by simpa using hlen)
      simp only [runOperations, flatMap_cons, mem_append] at hop htail
      by_cases hv : verdict = .kept <;>
        simp only [keptOperations, refusedOperations, selectRuns, hv, ne_eq,
          not_true_eq_false, not_false_eq_true, decide_true, decide_false, if_true,
          Bool.false_eq_true, if_false, mem_append] <;> tauto

variable {before after : Results}

/-- An evaluation folds the operations it admits, and reports no failure to
those that had a part in the outcome. -/
theorem WriteExecution.Evaluates.folds (hnd : g.Distinct) {ctx candidate}
    (h : x.Evaluates g ctx stored before candidate after) :
    ∃ kept, x.Admits g kept ∧
      (foldOperations ctx kept ⟨none, stored, before⟩).candidate = candidate ∧
      ∀ op ∈ g.operations, (after op.index).failure = none ↔ op ∈ effective ctx kept stored := by
  cases hb : x.budgets with
  | none =>
    simp only [WriteExecution.Evaluates, hb] at h
    cases h
    exact ⟨g.operations, x.admits_all g, rfl, fun op hop =>
      foldOperations_effective ctx hnd ⟨none, stored, before⟩ hop⟩
  | some budgets =>
    simp only [WriteExecution.Evaluates, hb] at h
    obtain ⟨inputs, outputs, rfl, rfl⟩ := h
    generalize hruns : ownerRuns (ownerOf (some budgets)) g.operations = runs
    have hall : runOperations runs = g.operations :=
      hruns ▸ runOperations_ownerRuns (ownerOf (some budgets)) g.operations
    have hnd' : ((runOperations runs).map (·.index)).Nodup := by rw [hall]; exact hnd
    have hfollows := prepareRuns_follows ctx runs hnd' ⟨none, stored, before, inputs, outputs⟩
      ⟨none, stored, before⟩ rfl rfl fun _ _ => rfl
    generalize hst : (⟨none, stored, before, inputs, outputs⟩ : BatchedState) = st at hfollows
    have hprepared : prepareBatchedWriteGroup ctx (ownerOf (some budgets)) g.operations stored
        before inputs outputs = (prepareRuns ctx runs st).2 := by
      rw [← hruns, ← hst]
      rfl
    rw [hprepared]
    refine ⟨keptOperations runs (prepareRuns ctx runs st).1, ?_, hfollows.candidate.symm, ?_⟩
    · simp only [WriteExecution.Admits, hb]
      exact ⟨_, by rw [hruns]⟩
    · intro op hop
      by_cases hk : op ∈ keptOperations runs (prepareRuns ctx runs st).1
      · have hkept : ((keptOperations runs (prepareRuns ctx runs st).1).map (·.index)).Nodup :=
          ((selectRuns_sublist _ runs _).map _).nodup hnd'
        rw [hfollows.results op hk]
        exact foldOperations_effective ctx hkept ⟨none, stored, before⟩ hk
      · have hrefused := (mem_kept_or_refused (prepareRuns_length ctx runs st)
          (hall ▸ hop)).resolve_left hk
        obtain ⟨-, failure, hf, -⟩ := prepareRuns_refused ctx runs hnd' st hrefused
        refine iff_of_false (by rw [hf]; exact Option.some_ne_none _) fun h => ?_
        exact hk (effective_subset ctx _ _ h)

theorem outcome_ok_usable {done : Bool} {d : Document} (h : outcome done op current = .ok d) :
    current.status = .found ∨ current.status = .notFound := by
  have heq := prepareOperation_eq done op current (.new op.index)
  rw [h] at heq
  unfold prepareOperation at heq
  split at heq
  · dsimp only [prepareFoldedPut] at heq
    split at heq
    · cases heq
    rename_i hvalid
    by_cases hf : current.status = .found
    · exact .inl hf
    · exact .inr (by_contra fun hn => hvalid ⟨hf, hn⟩)
  · unfold prepareMergeOperation at heq
    split at heq
    · exact .inl ‹_›
    · exact .inr ‹_›
    · cases heq
    · cases heq

theorem foldOperations_usable (ctx : Nat → Bool) {results : Results}
    (h : (foldOperations ctx ops ⟨none, current, results⟩).candidate = some w) :
    current.status = .found ∨ current.status = .notFound := by
  induction ops generalizing current results with
  | nil => cases h
  | cons op ops ih =>
    simp only [foldOperations_cons, foldOperation_eq] at h
    cases ho : outcome (ctx op.index) op current with
    | ok document => exact outcome_ok_usable ho
    | error e =>
      rw [ho] at h
      simp only [candidateOf, mergeCandidates_none_left, Storage.ReadResult.after] at h
      exact ih h

/-- The snapshot is consistent with the record: an equal revision means an
equal document. -/
structure Current (stored : Storage.ReadResult) (record : Option Record) : Prop where
  absent : stored.status = .notFound → stored.document = .empty
  same : stored.status = .found → ∀ rec, record = some rec → rec.revision = stored.revision →
    rec.document = stored.document

/-- If the commit's precondition holds, the record is the snapshot. -/
theorem Current.unchanged (h : Current stored record)
    (hu : stored.status = .found ∨ stored.status = .notFound)
    (hmatch : Store.matchesPrecondition stored.precondition record = true) :
    SameDocument stored (present (record.map (·.document))) := by
  unfold Storage.ReadResult.precondition snapshotPrecondition at hmatch
  rcases hu with hf | hn
  · simp only [hf, decide_true, Bool.not_true, Bool.false_eq_true, if_false] at hmatch
    cases record with
    | none => split at hmatch <;> simp [Store.matchesPrecondition] at hmatch
    | some rec =>
      have hrev : rec.revision = stored.revision := by
        split at hmatch
        · rename_i hempty
          have hrec : rec.revision.isEmpty = true := hmatch
          rw [List.isEmpty_iff] at hempty hrec
          rw [hrec, hempty]
        · simpa [Store.matchesPrecondition] using hmatch
      exact ⟨hf, (h.same hf rec rfl hrev).symm, .inl rfl⟩
  · simp only [hn, reduceCtorEq, decide_false, Bool.not_false, if_true] at hmatch
    cases record with
    | none => exact ⟨hn, h.absent hn, .inr rfl⟩
    | some rec => simp [Store.matchesPrecondition] at hmatch

/-- An evaluated commit that the store accepts runs the chain on the record. -/
theorem appliesTo_of_evaluated (hnd : g.Distinct) {ctx : Nat → Bool}
    (heval : x.Evaluates g ctx stored before (some w) after) (hcurrent : Current stored record)
    (hmatch : Store.matchesPrecondition w.precondition record = true) :
    AppliesTo x g (record.map (·.document)) w.document
      fun op => (after op.index).failure = none := by
  obtain ⟨kept, hadmits, hcandidate, htook⟩ := heval.folds hnd
  obtain ⟨-, hprecondition⟩ := foldOperations_candidate_shape ctx hcandidate
  rw [hprecondition] at hmatch
  have hunchanged := hcurrent.unchanged (foldOperations_usable ctx hcandidate) hmatch
  have hsame := hunchanged.afterAll ctx kept
  have hafter := afterAll_eq ctx kept stored before
  rw [hcandidate] at hafter
  rw [hafter] at hsame
  refine ⟨ctx, kept, hadmits, hsame.status.symm, hsame.document.symm, fun op hop => ?_⟩
  rw [← hunchanged.effective ctx kept]
  exact htook op hop

/-- So does the write of a direct group, with all operations. -/
theorem appliesTo_of_direct (hd : g.directPut = true) {put : ParsedPut}
    (hput : g.lastPut? = some put)
    (hmatch : Store.matchesPrecondition put.precondition record = true) :
    AppliesTo x g (record.map (·.document)) put.document fun _ => True := by
  let store : Store := ⟨fun _ => record, 0⟩
  obtain ⟨put', hput', hmeaning⟩ := direct_meaning hd store
  cases hput.symm.trans hput'
  rcases hmeaning with ⟨-, hreports, hafter⟩ | ⟨hno, -⟩
  · have hpresent : SameDocument (store.snapshot g.address)
        (present (record.map (·.document))) := by
      cases record with
      | none => exact ⟨rfl, rfl, .inr rfl⟩
      | some record => exact ⟨rfl, rfl, .inl rfl⟩
    have hsame := hpresent.afterAll (fun _ => false) g.operations
    rw [hafter] at hsame
    refine ⟨fun _ => false, g.operations, x.admits_all g, hsame.status.symm,
      hsame.document.symm, fun op hop => ?_⟩
    rw [← hpresent.effective, effective_of_applied _ hreports]
    exact iff_of_true trivial hop
  · rw [hno] at hmatch
    cases hmatch

/-! ## Counting commits -/

/-- The part of the chain that is executed next: one per publication. -/
def stage (es : History) : Nat := (publications es).length

/-- The applied writes of the history that belong to part `k`. -/
def commitsOf (k : Nat) : History → Nat
  | [] => 0
  | .wrote _ reply :: es =>
    (if reply.status = .applied ∧ stage es = k then 1 else 0) + commitsOf k es
  | _ :: es => commitsOf k es

theorem stage_published (results : List (Nat × WriteResult)) (es : History) :
    stage (.published results :: es) = stage es + 1 := rfl

theorem stage_append {t : History} (ht : ∀ e ∈ t, ∀ results, e ≠ .published results)
    (es : History) : stage (t ++ es) = stage es := by
  induction t with
  | nil => rfl
  | cons e t ih =>
    have htail := ih (forall_mem_cons.mp ht).2
    cases e with
    | published results => exact absurd rfl (ht _ mem_cons_self results)
    | _ => exact htail

theorem Unpublished.stage {start es : History} (h : Unpublished start es) :
    stage es = stage start := by
  obtain ⟨t, rfl, ht⟩ := h
  exact stage_append ht start

theorem stage_le_append (t es : History) : stage es ≤ stage (t ++ es) := by
  unfold stage publications
  rw [filterMap_append, length_append]
  exact Nat.le_add_left _ _

/-- No commit belongs to a part that has not been reached. -/
theorem commitsOf_of_stage_lt {k : Nat} {es : History} (h : stage es < k) : commitsOf k es = 0 := by
  induction es with
  | nil => rfl
  | cons e es ih =>
    have hle : stage es ≤ stage (e :: es) := stage_le_append [e] es
    have htail := ih (by omega)
    cases e with
    | wrote op reply =>
      have hne : ¬ (reply.status = .applied ∧ stage es = k) := fun hk => by omega
      simp only [commitsOf, if_neg hne, htail]
    | _ => exact htail

section Counting

variable {x : WriteExecution} {g : WriteGroup} {start es : History}
variable {op : ParsedWrite} {ends : List (WriteGroup × Results)}

theorem Attempts.commitsOf {n : Nat} (h : Attempts x g start n es) (k : Nat) :
    commitsOf k es = commitsOf k start := by
  induction h with
  | start => rfl
  | deferred _ _ ih => exact ih
  | conflict _ _ _ hreply ih =>
    simp only [Sink.commitsOf, hreply, reduceCtorEq, false_and, if_false, ih, Nat.zero_add]

theorem Proposes.stage {op : Storage.WriteOperation} (h : Proposes x g start es op) :
    stage es = stage start := by
  cases h with
  | direct => rfl
  | evaluated hat => exact ((hat.unpublished.cons (by simp)).cons (by simp)).stage

/-- Nothing of the part was committed when it proposes a write. -/
theorem Proposes.commitsOf {op : Storage.WriteOperation} (h : Proposes x g start es op)
    (k : Nat) : commitsOf k es = commitsOf k start := by
  cases h with
  | direct => rfl
  | evaluated hat => exact hat.commitsOf k

/-- What the group proposes has the effect of its chain on any record it can
meet. -/
theorem Proposes.appliesTo (h : Proposes x g start es w) (hnd : g.Distinct) {record : Option Record}
    (hcurrent : ∀ stored, .snapshot stored ∈ es → Current stored record)
    (hmatch : Store.matchesPrecondition w.precondition record = true) :
    ∃ took, AppliesTo x g (record.map (·.document)) w.document took := by
  cases h with
  | direct hdirect hput => exact ⟨_, appliesTo_of_direct hdirect hput hmatch⟩
  | evaluated _ _ heval =>
    exact ⟨_, appliesTo_of_evaluated hnd heval (hcurrent _ (by simp)) hmatch⟩

variable {r : Results}

theorem Concluded.unpublished (h : Concluded x g start es r) : Unpublished start es := by
  cases h with
  | conditional h => exact h.unpublished
  | written => exact Unpublished.refl.cons (by simp)
  | refused => exact .refl

variable {reply : Storage.WriteResult}

theorem answered_ne_applied (hnd : g.Distinct) (before : Results)
    (hreply : reply.status ≠ .applied) (document : Document) (hop : op ∈ g.operations) :
    (attachWriteDocument g.operations (applyWriteGroupResult g.operations before reply) document
      op.index).status ≠ .applied := by
  have hfailed : (applyGroupResult reply (before op.index)).Failed := by
    rw [applyGroupResult_of_ne_applied hreply]
    exact applyWriteResult_failed hreply _
  rw [settled_result hnd before reply document hop,
    attachDocument_of_ne_applied hfailed.ne_applied.1]
  exact hfailed.ne_applied.1

theorem refused_ne_applied (hnd : g.Distinct) (before : Results) (err : GoError)
    (hop : op ∈ g.operations) :
    (applyWriteGroupResult g.operations before (.ofError err) op.index).status ≠ .applied := by
  have hne : (Storage.WriteResult.ofError err).status ≠ .applied := by
    simp [Storage.WriteResult.ofError]
  rw [applyWriteGroupResult_of_mem hnd hop, applyGroupResult_of_ne_applied hne]
  exact (applyWriteResult_failed hne _).ne_applied.1

/-- After an applied commit, exactly the operations without an evaluated
failure are reported applied. -/
theorem answered_applied_iff (hnd : g.Distinct) {after : Results} (hop : op ∈ g.operations)
    (hev : (after op.index).Evaluated) (hreply : reply.status = .applied) (document : Document) :
    (attachWriteDocument g.operations (applyWriteGroupResult g.operations after reply) document
      op.index).status = .applied ↔ (after op.index).failure = none := by
  have hreport := settled_report hnd after reply document hop
  rw [applyGroupResult_report hreply] at hreport
  have hstatus := congrArg Prod.fst hreport
  simp only [WriteResult.report] at hstatus
  rw [hstatus]
  unfold WriteResult.settledReport
  rcases hev.2 with ⟨-, hnone⟩ | hfailed
  · simp [hnone]
  have hsome := hfailed.2
  rw [if_pos hsome]
  refine iff_of_false hfailed.ne_applied.1 fun hnone => ?_
  rw [hnone] at hsome
  cases hsome

theorem AppliesTo.congr {before after took took'} (h : AppliesTo x g before after took)
    (heq : ∀ op ∈ g.operations, took' op ↔ took op) : AppliesTo x g before after took' := by
  obtain ⟨ctx, kept, hadmits, hstatus, hdocument, htook⟩ := h
  exact ⟨ctx, kept, hadmits, hstatus, hdocument, fun op hop => (heq op hop).trans (htook op hop)⟩

/-- The history ends with an applied write of the group, whose effect on any
record it can have met is to run the group's chain. -/
def EndsWithCommit (x : WriteExecution) (g : WriteGroup) (start es : History)
    (took : ParsedWrite → Prop) : Prop :=
  ∃ w reply rest, es = .wrote w reply :: rest ∧ reply.status = .applied ∧
    stage rest = stage start ∧
    ∀ record, (∀ stored, .snapshot stored ∈ rest → Current stored record) →
      Store.matchesPrecondition w.precondition record = true →
      AppliesTo x g (record.map (·.document)) w.document took

theorem Settlement.commit (hnd : g.Distinct) (h : Settlement x g start es r)
    (hop : op ∈ g.operations) (ha : (r op.index).status = .applied) :
    EndsWithCommit x g start es fun op => (r op.index).status = .applied := by
  cases h with
  | @answered n es ctx stored before after w reply hat _ hclean heval _ =>
    have happlied : reply.status = .applied := by
      by_contra hne
      exact answered_ne_applied hnd after hne w.document hop ha
    refine ⟨w, reply, _, rfl, happlied,
      ((hat.unpublished.cons (by simp)).cons (by simp)).stage, fun record hcurrent hmatch => ?_⟩
    have hstored := hcurrent stored (by simp)
    exact (appliesTo_of_evaluated hnd heval hstored hmatch).congr fun op' hop' =>
      answered_applied_iff hnd hop' (heval.evaluated hnd hclean hop').1 happlied w.document
  | nothing _ _ hclean heval =>
    exact absurd ha ((heval.evaluated hnd hclean hop).2 rfl).ne_applied.1
  | refused => exact absurd ha (refused_ne_applied hnd _ _ hop)
  | exhausted =>
    rw [updateEach_of_mem hnd hop] at ha
    exact absurd ha (setWriteFailure_failed _ _ _ _).ne_applied.1
  | conflict =>
    rw [updateEach_of_mem hnd hop] at ha
    cases ha

theorem Concluded.commit (hnd : g.Distinct) (h : Concluded x g start es r)
    (hop : op ∈ g.operations) (ha : (r op.index).status = .applied) :
    EndsWithCommit x g start es fun op => (r op.index).status = .applied := by
  cases h with
  | conditional h => exact h.commit hnd hop ha
  | @written put before reply hd hput hfresh =>
    have happlied : reply.status = .applied := by
      by_contra hne
      exact answered_ne_applied hnd before hne put.document hop ha
    refine ⟨_, reply, start, rfl, happlied, rfl, fun record _ hmatch => ?_⟩
    refine (appliesTo_of_direct hd hput hmatch).congr fun op' hop' => ?_
    have hnew : (before op'.index).Evaluated ∧ (before op'.index).failure = none := by
      rw [hfresh op' hop']
      exact ⟨⟨⟨rfl, rfl⟩, .inl ⟨rfl, rfl⟩⟩, rfl⟩
    exact iff_of_true ((answered_applied_iff hnd hop' hnew.1 happlied put.document).mpr hnew.2)
      trivial
  | refused => exact absurd ha (refused_ne_applied hnd _ _ hop)

/-! ## Counting along a chain -/

section

variable (h : Chained x ends start es)

include h

theorem Chained.suffix : ∃ t, es = t ++ start := by
  induction h with
  | nil => exact ⟨[], rfl⟩
  | @cons p r _ _ _ _ hp _ ih =>
    obtain ⟨t, rfl⟩ := ih
    obtain ⟨t', rfl, -⟩ := hp.unpublished
    exact ⟨t ++ publication p r :: t', by simp⟩

theorem Chained.published {e : WriteGroup × Results} (he : e ∈ ends) :
    publication e.1 e.2 ∈ es := by
  induction h with
  | nil => cases he
  | @cons p r _ _ es₁ _ _ hrest ih =>
    rcases mem_cons.mp he with rfl | he
    · obtain ⟨t, rfl⟩ := hrest.suffix
      exact mem_append_right _ mem_cons_self
    · exact ih he

theorem Chained.stage : stage es = stage start + ends.length := by
  induction h with
  | nil => rfl
  | cons hp _ ih =>
    rw [ih, publication, stage_published, hp.unpublished.stage, length_cons]
    omega

/-- Between two parts nothing of the next one is committed. -/
theorem Chained.fresh (hstart : commitsOf (Sink.stage start) start = 0) :
    commitsOf (Sink.stage es) es = 0 := by
  induction h with
  | nil => exact hstart
  | @cons p r _ _ es₁ _ _ _ ih =>
    have hlt : Sink.stage es₁ < Sink.stage (publication p r :: es₁) := Nat.lt_succ_self _
    have hnone : commitsOf (Sink.stage (publication p r :: es₁)) es₁ = 0 :=
      commitsOf_of_stage_lt hlt
    exact ih hnone

end

end Counting

end Sink
