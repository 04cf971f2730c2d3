import Sink.GroupFacts
import Sink.MemoryWorld

/-!
# Folding is sequential execution

Executing a chain of writes for one record as a group is compared with
executing its operations one at a time, each as a group of its own, in an
undisturbed memory store. Both are compared with the plain meaning of the
chain: evaluate the operations one after another, carrying the document
along (`outcomes`, `afterAll`). What an evaluation answers depends on the
presence and the document of the record only (`SameDocument`), never on
its revision, so a chain of separately committed writes and one fold over
the first snapshot see the same answers.
-/

namespace Sink

open Interact Interact.Exec List Memory

variable {current a b : Storage.ReadResult} {op : ParsedWrite} {ops : List ParsedWrite}
  {store : Store} {g : WriteGroup} {x : WriteExecution}

/-! ## The meaning of a chain -/

/-- The answers of evaluating the operations one after another. -/
def outcomes (ctx : Nat → Bool) : List ParsedWrite → Storage.ReadResult → List Outcome
  | [], _ => []
  | op :: ops, current =>
    let o := outcome (ctx op.index) op current
    o :: outcomes ctx ops (current.after o)

/-- What a caller is told about an answer that was carried out. -/
def reported : Outcome → WriteStatus × Option Failure
  | .ok _ => (.applied, none)
  | .error e => e

/-- What a result tells its caller. -/
def WriteResult.report (result : WriteResult) : WriteStatus × Option Failure :=
  (result.status, result.failure)

structure SameDocument (a b : Storage.ReadResult) : Prop where
  status : a.status = b.status
  document : a.document = b.document
  usable : b.status = .found ∨ b.status = .notFound

/-- The answer of a merge program does not depend on the precondition. -/
theorem runMerge_fst (done : Bool) (op : ParsedWrite) (merge : ParsedMerge)
    (current : Option Document) (condition condition' : Storage.Precondition)
    (result : WriteResult) :
    (runMerge done op merge current condition result).1.map (·.document) =
        (runMerge done op merge current condition' result).1.map (·.document) ∧
      (runMerge done op merge current condition result).2 =
        (runMerge done op merge current condition' result).2 := by
  unfold runMerge
  split
  · exact ⟨rfl, rfl⟩
  · split <;> exact ⟨rfl, rfl⟩

/-- The put's write mode does not allow the record's presence. -/
def ParsedPut.refuses (put : ParsedPut) (present : Bool) : Prop :=
  (put.precondition = .recordExists ∧ present = false) ∨
    (put.precondition = .recordNotExists ∧ present = true)

instance (put : ParsedPut) (present : Bool) : Decidable (put.refuses present) :=
  inferInstanceAs (Decidable (_ ∨ _))

theorem prepareFoldedPut_usable (op : ParsedWrite) (put : ParsedPut)
    (hu : current.status = .found ∨ current.status = .notFound) (result : WriteResult) :
    prepareFoldedPut op put current result =
      if put.refuses (decide (current.status = .found)) then
        (none, applyWriteResult result ⟨.preconditionFailed, [], none⟩)
      else (some ⟨op.address, put.document, current.precondition⟩, result) := by
  have hvalid : ¬ (current.status ≠ .found ∧ current.status ≠ .notFound) :=
    fun ⟨hf, hn⟩ => hu.elim hf hn
  unfold prepareFoldedPut
  rw [if_neg hvalid]
  rfl

theorem outcome_eq (done : Bool) (op : ParsedWrite) (current : Storage.ReadResult) :
    outcome done op current =
      match (prepareOperation done op current (.new op.index)).1.map (·.document) with
      | some document => .ok document
      | none => .error (prepareOperation done op current (.new op.index)).2.report := by
  unfold outcome
  rcases prepareOperation done op current (.new op.index) with ⟨_ | merged, result⟩ <;> rfl

theorem SameDocument.outcome (h : SameDocument a b) (done : Bool) (op : ParsedWrite) :
    outcome done op a = outcome done op b := by
  rw [outcome_eq, outcome_eq]
  have hsame : (prepareOperation done op a (.new op.index)).1.map (·.document) =
        (prepareOperation done op b (.new op.index)).1.map (·.document) ∧
      (prepareOperation done op a (.new op.index)).2 =
        (prepareOperation done op b (.new op.index)).2 := by
    unfold prepareOperation
    cases op.action with
    | put put =>
      simp only [prepareFoldedPut_usable op put h.usable,
        prepareFoldedPut_usable op put (h.status ▸ h.usable), h.status]
      split <;> exact ⟨rfl, rfl⟩
    | merge merge =>
      simp only [prepareMergeOperation, h.status, h.document]
      rcases h.usable with hb | hb <;> rw [hb]
      · exact runMerge_fst _ _ _ _ _ _ _
      · exact runMerge_fst _ _ _ _ _ _ _
  rw [hsame.1, hsame.2]

/-- A put answers with its own document unless its mode forbids it. -/
theorem outcome_put (done : Bool) {put : ParsedPut} (hput : op.action = .put put)
    (hu : current.status = .found ∨ current.status = .notFound) :
    outcome done op current =
      if put.refuses (decide (current.status = .found)) then
        .error (applyWriteResult (.new op.index) ⟨.preconditionFailed, [], none⟩).report
      else .ok put.document := by
  rw [outcome_eq]
  simp only [prepareOperation, hput, prepareFoldedPut_usable op put hu]
  by_cases hr : put.refuses (decide (current.status = .found))
  · simp only [if_pos hr]
    rfl
  · simp only [if_neg hr]
    rfl

theorem SameDocument.after (h : SameDocument a b) (o : Outcome) :
    SameDocument (a.after o) (b.after o) := by
  cases o with
  | ok document => exact ⟨rfl, rfl, .inl rfl⟩
  | error e => exact h

theorem SameDocument.outcomes (h : SameDocument a b) (ctx : Nat → Bool) (ops : List ParsedWrite) :
    outcomes ctx ops a = outcomes ctx ops b := by
  induction ops generalizing a b with
  | nil => rfl
  | cons op ops ih =>
    simp only [Sink.outcomes, h.outcome]
    rw [ih (h.after _)]

theorem SameDocument.afterAll (h : SameDocument a b) (ctx : Nat → Bool) (ops : List ParsedWrite) :
    SameDocument (afterAll ctx ops a) (afterAll ctx ops b) := by
  induction ops generalizing a b with
  | nil => exact h
  | cons op ops ih =>
    simp only [Sink.afterAll, h.outcome]
    exact ih (h.after _)

/-! ## What a settled fold reports -/

/-- What a settled operation is told, given its result after evaluation: an
evaluated failure stays, everything else was applied. -/
def WriteResult.settledReport (result : WriteResult) : WriteStatus × Option Failure :=
  if result.failure.isSome then result.report else (.applied, none)

theorem settledReport_record (result : WriteResult) (done : Bool) (op : ParsedWrite)
    (current : Storage.ReadResult) :
    (result.reset.record (outcome done op current)).settledReport =
      reported (outcome done op current) := by
  cases h : outcome done op current with
  | ok document => rfl
  | error e => exact if_pos (outcome_error h).2

/-- Read off the results of a fold in order, they report the chain's meaning. -/
theorem foldOperations_reports (ctx : Nat → Bool) (hnd : (ops.map (·.index)).Nodup)
    (st : FoldState) :
    ops.map (fun op => ((foldOperations ctx ops st).results op.index).settledReport) =
      (outcomes ctx ops st.current).map reported := by
  induction ops generalizing st with
  | nil => rfl
  | cons op ops ih =>
    obtain ⟨hop, hnd⟩ := nodup_cons.mp hnd
    have hne : ∀ o ∈ ops, o.index ≠ op.index := fun o ho h =>
      hop (mem_map.mpr ⟨o, ho, h⟩)
    have htail := ih hnd (foldOperation ctx st op)
    simp only [map_cons, foldOperations_cons, outcomes]
    rw [foldOperations_results_of_notMem ctx ops hne, htail, foldOperation_eq]
    simp only [Function.update_self, settledReport_record]

/-- A property of every document the chain computes holds of the candidate's
document. -/
theorem foldOperations_candidate_document (ctx : Nat → Bool) {P : Document → Prop}
    (hP : ∀ d, .ok d ∈ outcomes ctx ops current → P d)
    {results w}
    (h : (foldOperations ctx ops ⟨none, current, results⟩).candidate = some w) : P w.document := by
  induction ops generalizing current results w with
  | nil => cases h
  | cons op ops ih =>
    simp only [foldOperations_cons, foldOperation_eq] at h
    rw [foldOperations_candidate ctx ops _ _ _ results, mergeCandidates_none_left] at h
    cases hlater : (foldOperations ctx ops ⟨none, current.after (outcome (ctx op.index) op
        current), results⟩).candidate with
    | some later =>
      have hlast : w.document = later.document := by
        rw [hlater] at h
        cases ho : outcome (ctx op.index) op current <;> rw [ho] at h <;> cases h <;> rfl
      rw [hlast]
      exact ih (fun d hd => hP d (mem_cons_of_mem _ hd)) hlater
    | none =>
      rw [hlater] at h
      cases ho : outcome (ctx op.index) op current with
      | ok document =>
        rw [ho] at h
        cases h
        exact hP document (ho ▸ mem_cons_self)
      | error e =>
        rw [ho] at h
        cases h

/-! ## Writes to the memory store -/

theorem snapshot_usable (store : Store) (address : Address) :
    (store.snapshot address).status = .found ∨ (store.snapshot address).status = .notFound := by
  unfold Store.snapshot
  split
  · exact .inr rfl
  · exact .inl rfl

/-- A commit evaluated on the current snapshot finds it unchanged. -/
theorem snapshot_matches (store : Store) (address : Address) :
    Store.matchesPrecondition (store.snapshot address).precondition
      (store.records address) = true := by
  unfold Store.snapshot Storage.ReadResult.precondition snapshotPrecondition
  cases store.records address with
  | none => rfl
  | some record =>
    by_cases hr : record.revision.isEmpty = true <;>
      simp [hr, Store.matchesPrecondition]

/-- A write mode is checked by the store as it is by an evaluation. -/
theorem put_matches (put : ParsedPut) (store : Store) (address : Address) :
    Store.matchesPrecondition put.precondition (store.records address) = true ↔
      ¬ put.refuses (decide ((store.snapshot address).status = .found)) := by
  unfold ParsedPut.refuses Store.snapshot
  rcases put.mode with h | h | h <;> rw [h] <;> cases store.records address <;>
    simp [Store.matchesPrecondition]

theorem writeOne_applied {op : Storage.WriteOperation}
    (h : Store.matchesPrecondition op.precondition (store.records op.address) = true) :
    (store.writeOne op).1.status = .applied ∧
      SameDocument ((store.writeOne op).2.snapshot op.address)
        (advance (store.snapshot op.address) op.document) := by
  unfold Store.writeOne
  rw [if_pos h]
  refine ⟨rfl, ?_⟩
  simp only [Store.snapshot, Function.update_self]
  exact ⟨rfl, rfl, .inl rfl⟩

/-! ## A group carries out its chain -/

/-- No byte budget refuses the stored record or a document that the chain
computes on its way. -/
structure NeverRejects (x : WriteExecution) (ops : List ParsedWrite) (store : Store)
    (address : Address) : Prop where
  stored : ∀ record, store.records address = some record → Fits x record.document
  answers : ∀ d, .ok d ∈ outcomes (fun _ => false) ops (store.snapshot address) → Fits x d

/-- The results and the store are those of the chain, with at most one
storage operation of each kind. -/
structure Carries (ops : List ParsedWrite) (address : Address) (w : MemoryWorld)
    (results : Results) (w' : MemoryWorld) : Prop where
  reports : ops.map (fun op => (results op.index).report) =
    (outcomes (fun _ => false) ops (w.store.snapshot address)).map reported
  document : SameDocument (w'.store.snapshot address)
    (afterAll (fun _ => false) ops (w.store.snapshot address))
  reads : w'.reads ≤ w.reads + 1
  writes : w'.writes ≤ w.writes + 1

theorem attachDocument_report (flag : Bool) (document : Document) (result : WriteResult) :
    (attachDocument flag document result).report = result.report := by
  unfold attachDocument
  split <;> rfl

theorem applyGroupResult_report {stored : Storage.WriteResult} (h : stored.status = .applied)
    (result : WriteResult) : (applyGroupResult stored result).report = result.settledReport := by
  unfold WriteResult.settledReport
  by_cases hf : result.failure.isSome = true
  · rw [if_pos hf, applyGroupResult_failed h hf]
    rfl
  have hnone : result.failure = none := by simpa using hf
  rw [if_neg hf, applyGroupResult_succeeded h hnone]
  simp only [WriteResult.report, hnone]

theorem settled_report (hnd : (ops.map (·.index)).Nodup) (results : Results)
    (stored : Storage.WriteResult) (document : Document) (hop : op ∈ ops) :
    (attachWriteDocument ops (applyWriteGroupResult ops results stored) document op.index).report =
      (applyGroupResult stored (results op.index)).report := by
  rw [attachWriteDocument, updateEach_of_mem hnd hop, attachDocument_report,
    applyWriteGroupResult_of_mem hnd hop]

theorem settle_carries (hnd : (g.operations.map (·.index)).Nodup) (w w' : MemoryWorld)
    (hstore : w'.store = w.store) (hreads : w'.reads ≤ w.reads + 1)
    (hwrites : w'.writes = w.writes) (results : Results) :
    let settled := w'.settle g
      (prepareWriteGroup (fun _ => false) g.operations (w.store.snapshot g.address) results)
    Carries g.operations g.address w settled.1 settled.2 := by
  have hreports := foldOperations_reports (fun _ => false) hnd
    ⟨none, w.store.snapshot g.address, results⟩
  have hafter := afterAll_eq (fun _ => false) g.operations (w.store.snapshot g.address) results
  have hsome := foldOperations_candidate_isSome (fun _ => false) hnd (w.store.snapshot g.address)
    results
  have hdoc := SameDocument.mk rfl rfl (snapshot_usable w.store g.address)
  simp only [prepareWriteGroup, MemoryWorld.settle]
  cases hc : (foldOperations (fun _ => false) g.operations
      ⟨none, w.store.snapshot g.address, results⟩).candidate with
  | none =>
    rw [hc] at hafter hsome
    refine ⟨?_, ?_, hreads, by simp only; omega⟩
    · rw [← hreports]
      refine map_congr_left fun op hop => ?_
      have hf : ((foldOperations (fun _ => false) g.operations
          ⟨none, w.store.snapshot g.address, results⟩).results op.index).failure.isSome := by
        rw [Option.isSome_iff_ne_none]
        intro hnone
        simpa using hsome.mpr ⟨op, hop, hnone⟩
      exact (if_pos hf).symm
    · rw [hafter, hstore]
      exact hdoc
  | some op =>
    obtain ⟨⟨o, ho, haddress⟩, hprecondition⟩ :=
      foldOperations_candidate_shape (fun _ => false) hc
    rw [g.sameAddress o ho] at haddress
    have hmatch : Store.matchesPrecondition op.precondition
        (w'.store.records op.address) = true := by
      rw [hprecondition, haddress, hstore]
      exact snapshot_matches w.store g.address
    obtain ⟨happlied, hsame⟩ := writeOne_applied hmatch
    rw [hc] at hafter
    refine ⟨?_, ?_, hreads, by simp only; omega⟩
    · rw [← hreports]
      refine map_congr_left fun o ho => ?_
      rw [settled_report hnd _ _ _ ho, applyGroupResult_report happlied]
    · rw [hafter]
      rw [haddress, hstore] at hsame
      simp only [hstore]
      exact hsame

/-! ## Direct groups -/

theorem outcome_upsert (done : Bool) (hop : WriteGroup.isUpsert op = true)
    (hu : current.status = .found ∨ current.status = .notFound) :
    ∃ put, op.put? = some put ∧ outcome done op current = .ok put.document := by
  unfold WriteGroup.isUpsert at hop
  split at hop
  · rename_i put hput
    refine ⟨put, by simp only [ParsedWrite.put?, hput], ?_⟩
    have hmode : put.precondition = .none := of_decide_eq_true hop
    rw [outcome_put done hput hu, if_neg]
    simp [ParsedPut.refuses, hmode]
  · cases hop

/-- A chain of upserts succeeds as a whole and leaves its last document. -/
theorem upserts_meaning (ctx : Nat → Bool) (hne : ops ≠ [])
    (hops : ∀ op ∈ ops, WriteGroup.isUpsert op = true)
    (hu : current.status = .found ∨ current.status = .notFound) :
    ∃ put, (ops.getLast hne).put? = some put ∧
      (outcomes ctx ops current).map reported = ops.map (fun _ => (.applied, none)) ∧
      afterAll ctx ops current = advance current put.document := by
  induction ops generalizing current with
  | nil => exact absurd rfl hne
  | cons op ops ih =>
    obtain ⟨put, hput, ho⟩ := outcome_upsert (ctx op.index) (hops op mem_cons_self) hu
    cases ops with
    | nil =>
      refine ⟨put, hput, ?_, ?_⟩
      · simp only [outcomes, ho, map_cons, map_nil, reported]
      · simp only [afterAll, ho, Storage.ReadResult.after]
    | cons op' ops =>
      have hnext : (advance current put.document).status = .found ∨
          (advance current put.document).status = .notFound := .inl rfl
      obtain ⟨last, hlast, hreports, hafter⟩ := ih (cons_ne_nil _ _)
        (forall_mem_cons.mp hops).2 hnext
      refine ⟨last, ?_, ?_, ?_⟩
      · rw [getLast_cons (cons_ne_nil _ _), hlast]
      · rw [outcomes, ho]
        simp only [map_cons, Storage.ReadResult.after] at hreports ⊢
        rw [hreports]
        rfl
      · rw [afterAll, ho]
        exact hafter

/-- A direct group writes its last put, and its chain answers as the store
does: either the only put is refused, or everything is applied. -/
theorem direct_meaning (hd : g.directPut = true) (store : Store) :
    ∃ put, g.lastPut? = some put ∧
      ((Store.matchesPrecondition put.precondition (store.records g.address) = true ∧
          (outcomes (fun _ => false) g.operations (store.snapshot g.address)).map reported =
            g.operations.map (fun _ => (.applied, none)) ∧
          afterAll (fun _ => false) g.operations (store.snapshot g.address) =
            advance (store.snapshot g.address) put.document) ∨
        (Store.matchesPrecondition put.precondition (store.records g.address) = false ∧
          (outcomes (fun _ => false) g.operations (store.snapshot g.address)).map reported =
            g.operations.map (fun op =>
              (applyWriteResult (.new op.index) ⟨.preconditionFailed, [], none⟩).report) ∧
          afterAll (fun _ => false) g.operations (store.snapshot g.address) =
            store.snapshot g.address)) := by
  have hu := snapshot_usable store g.address
  rcases g.directPut_cases hd with ⟨op, put, hops, hput⟩ | hups
  · have hlast : g.lastPut? = some put := by
      simp only [WriteGroup.lastPut?, hops, getLast_singleton, ParsedWrite.put?, hput]
    have ho := outcome_put false hput hu
    refine ⟨put, hlast, ?_⟩
    simp only [hops, outcomes, afterAll, map_cons, map_nil]
    by_cases hr : put.refuses (decide ((store.snapshot g.address).status = .found))
    · rw [if_pos hr] at ho
      refine .inr ⟨?_, ?_, ?_⟩
      · rw [← Bool.not_eq_true, put_matches, not_not]
        exact hr
      · rw [ho]
        rfl
      · rw [ho]
        rfl
    · rw [if_neg hr] at ho
      refine .inl ⟨(put_matches put store g.address).mpr hr, ?_, ?_⟩
      · rw [ho]
        rfl
      · rw [ho]
        rfl
  · obtain ⟨put, hlast, hreports, hafter⟩ := upserts_meaning (fun _ => false) g.nonempty hups hu
    refine ⟨put, hlast, .inl ⟨?_, hreports, hafter⟩⟩
    have hup := hups _ (getLast_mem g.nonempty)
    unfold WriteGroup.isUpsert at hup
    unfold ParsedWrite.put? at hlast
    cases haction : (g.operations.getLast g.nonempty).action with
    | merge merge => rw [haction] at hup; cases hup
    | put last =>
      rw [haction] at hup hlast
      cases hlast
      rw [of_decide_eq_true hup]
      rfl

/-- The only write of a direct group carries out its chain. -/
theorem direct_carries (hnd : (g.operations.map (·.index)).Nodup) (hd : g.directPut = true)
    (w : MemoryWorld) :
    ∃ put, g.lastPut? = some put ∧
      let reply := w.store.writeOne ⟨g.address, put.document, put.precondition⟩
      Carries g.operations g.address w
        (attachWriteDocument g.operations
          (applyWriteGroupResult g.operations .new reply.1) put.document)
        { w with store := reply.2, writes := w.writes + 1 } := by
  obtain ⟨put, hput, hmeaning⟩ := direct_meaning hd w.store
  refine ⟨put, hput, ?_⟩
  rcases hmeaning with ⟨hmatch, hreports, hafter⟩ | ⟨hmatch, hreports, hafter⟩
  · obtain ⟨happlied, hsame⟩ :=
      @writeOne_applied w.store ⟨g.address, put.document, put.precondition⟩ hmatch
    refine ⟨?_, hafter ▸ hsame, by simp, by simp⟩
    rw [hreports]
    refine map_congr_left fun op hop => ?_
    rw [settled_report hnd _ _ _ hop, applyGroupResult_report happlied]
    rfl
  · have hrefused : w.store.writeOne ⟨g.address, put.document, put.precondition⟩ =
        (⟨.preconditionFailed, [], none⟩, w.store) := by
      unfold Store.writeOne
      rw [if_neg (by simp [hmatch])]
    rw [hrefused]
    refine ⟨?_, ?_, by simp, by simp⟩
    swap
    · rw [hafter]
      exact ⟨rfl, rfl, snapshot_usable w.store g.address⟩
    rw [hreports]
    refine map_congr_left fun op hop => ?_
    rw [settled_report hnd _ _ _ hop]
    rfl

theorem executeWriteGroups_carries (hx : Ordinary x) (fuel : Nat) (hret : g.hasReturns = false)
    (hnd : (g.operations.map (·.index)).Nodup) (w : MemoryWorld)
    (hfits : NeverRejects x g.operations w.store g.address) :
    ∃ s' w', compute (x.executeWriteGroups (fuel + 1) [g]) (.initial x) w =
        some (.ok (), s', w') ∧ Carries g.operations g.address w s'.results w' := by
  cases hd : g.directPut with
  | true =>
    obtain ⟨put, hput, hcarries⟩ := direct_carries hnd hd w
    refine ⟨_, _, compute_executeWriteGroups hret
      (compute_executeWriteWave_direct hx hd (compute_executePuts rfl w hput)), hcarries⟩
  | false =>
    have hun : Undisturbed x w (w.store.snapshot g.address)
        (prepareWriteGroup (fun _ => false) g.operations (w.store.snapshot g.address) .new) := by
      refine ⟨?_, ?_, ?_⟩
      · unfold Store.snapshot
        split <;> rfl
      · intro op hop
        exact foldOperations_candidate_document (fun _ => false) hfits.answers hop
      · intro op hop
        obtain ⟨⟨o, ho, haddress⟩, hprecondition⟩ :=
          foldOperations_candidate_shape (fun _ => false) hop
        have hmatch : Store.matchesPrecondition op.precondition
            (w.store.records op.address) = true := by
          rw [hprecondition, haddress, g.sameAddress o ho]
          exact snapshot_matches w.store g.address
        rw [(writeOne_applied hmatch).1]
        simp
    obtain ⟨attempt, reservation, hrun⟩ := compute_executeConditionalWrites hx fuel w
      (s := .initial x) rfl rfl hfits.stored hun
    refine ⟨_, _, compute_executeWriteGroups hret
      (compute_executeWriteWave_conditional hd hrun), ?_⟩
    exact settle_carries hnd w { w with reads := w.reads + 1 } rfl (by simp) rfl .new

/-! ## One operation at a time -/

/-- Execute the operations one after another, each as a group of its own,
and collect their results. -/
def runSequentially (x : WriteExecution) (fuel : Nat) :
    List ParsedWrite → Store → Option (List WriteResult × Store)
  | [], store => some ([], store)
  | op :: ops, store =>
    match compute (x.executeWriteGroups fuel [.single op]) (.initial x) ⟨store, 0, 0⟩ with
    | some (.ok (), s, w) =>
      (runSequentially x fuel ops w.store).map fun r => (s.results op.index :: r.1, r.2)
    | _ => none

theorem SameDocument.trans {c : Storage.ReadResult} (h : SameDocument a b) (h' : SameDocument b c) :
    SameDocument a c :=
  ⟨h.status.trans h'.status, h.document.trans h'.document, h'.usable⟩

theorem snapshot_document (store : Store) (address : Address) :
    (store.records address).map (·.document) =
      if (store.snapshot address).status = .found then some (store.snapshot address).document
      else none := by
  unfold Store.snapshot
  cases store.records address <;> rfl

/-- The budgets still suffice after one operation was carried out. -/
theorem NeverRejects.tail {store' : Store} {address : Address}
    (h : NeverRejects x (op :: ops) store address)
    (hsame : SameDocument (store'.snapshot address)
      ((store.snapshot address).after (outcome false op (store.snapshot address)))) :
    NeverRejects x ops store' address := by
  refine ⟨fun record hrec => ?_, fun d hd => h.answers d (mem_cons_of_mem _ ?_)⟩
  swap
  · rwa [← hsame.outcomes]
  have hdoc := hsame.document
  have hstatus := hsame.status
  simp only [Store.snapshot, hrec] at hdoc hstatus
  rw [hdoc]
  cases ho : outcome false op (store.snapshot address) with
  | ok document =>
    unfold Store.snapshot at ho
    rw [ho]
    exact h.answers document (ho ▸ mem_cons_self)
  | error e =>
    unfold Store.snapshot at ho
    rw [ho] at hstatus ⊢
    cases hold : store.records address with
    | none => rw [hold] at hstatus; cases hstatus
    | some old => exact h.stored old hold

/-- Executing the operations one at a time carries out the chain too. -/
theorem runSequentially_meaning (hx : Ordinary x) (fuel : Nat) {address : Address}
    (haddress : ∀ op ∈ ops, op.address = address) (hret : ∀ op ∈ ops, op.returnDocument = false)
    (hfits : NeverRejects x ops store address) :
    ∃ results store', runSequentially x (fuel + 1) ops store = some (results, store') ∧
      results.map (·.report) =
        (outcomes (fun _ => false) ops (store.snapshot address)).map reported ∧
      SameDocument (store'.snapshot address)
        (afterAll (fun _ => false) ops (store.snapshot address)) := by
  induction ops generalizing store with
  | nil => exact ⟨[], store, rfl, rfl, rfl, rfl, snapshot_usable store address⟩
  | cons op ops ih =>
    obtain rfl := haddress op mem_cons_self
    have hone : NeverRejects x (WriteGroup.single op).operations store op.address :=
      ⟨hfits.stored, fun d hd => hfits.answers d (mem_singleton.mp hd ▸ mem_cons_self)⟩
    obtain ⟨s, w, hrun, hcarries⟩ := executeWriteGroups_carries hx fuel
      (g := .single op) (by simp [WriteGroup.hasReturns, WriteGroup.single,
        hret op mem_cons_self]) (by simp [WriteGroup.single]) ⟨store, 0, 0⟩ hone
    have hreport := hcarries.reports
    have hdoc := hcarries.document
    simp only [WriteGroup.single, outcomes, map_cons, map_nil, cons.injEq, and_true] at hreport
    simp only [WriteGroup.single, afterAll] at hdoc
    obtain ⟨results, store', hrest, hreports, hfinal⟩ := ih
      (forall_mem_cons.mp haddress).2
      (forall_mem_cons.mp hret).2 (hfits.tail hdoc)
    refine ⟨s.results op.index :: results, store', ?_, ?_, ?_⟩
    · simp only [runSequentially, hrun, hrest, Option.map_some]
    · simp only [map_cons, outcomes, hreport, hreports, hdoc.outcomes]
    · exact hfinal.trans (hdoc.afterAll _ _)

/-- Executing a whole chain as one group answers every operation as
executing the operations one at a time does, and leaves the same document,
with at most one storage read and one storage write. -/
theorem executeWriteGroups_sequential {x : WriteExecution} (hx : Ordinary x) (fuel : Nat)
    {g : WriteGroup} (hret : g.hasReturns = false)
    (hnd : (g.operations.map (·.index)).Nodup) (store : Store)
    (hfits : NeverRejects x g.operations store g.address) :
    ∃ s w results store',
      compute (x.executeWriteGroups (fuel + 1) [g]) (.initial x) ⟨store, 0, 0⟩ =
        some (.ok (), s, w) ∧
      runSequentially x (fuel + 1) g.operations store = some (results, store') ∧
      g.operations.map (fun op => (s.results op.index).report) = results.map (·.report) ∧
      (w.store.records g.address).map (·.document) = (store'.records g.address).map (·.document) ∧
      w.reads ≤ 1 ∧ w.writes ≤ 1 := by
  have hflags : ∀ op ∈ g.operations, op.returnDocument = false := by
    simpa [WriteGroup.hasReturns] using hret
  obtain ⟨s, w, hrun, hcarries⟩ := executeWriteGroups_carries hx fuel hret hnd ⟨store, 0, 0⟩ hfits
  obtain ⟨results, store', hseq, hreports, hdoc⟩ :=
    runSequentially_meaning hx fuel g.sameAddress hflags hfits
  refine ⟨s, w, results, store', hrun, hseq, hcarries.reports.trans hreports.symm, ?_,
    hcarries.reads, hcarries.writes⟩
  rw [snapshot_document, snapshot_document, hcarries.document.status, hcarries.document.document,
    hdoc.status, hdoc.document]

theorem executeWriteGroups_sequential_append :
    let x : WriteExecution := ⟨1000, 1, none, false, false, ⟨0, 0⟩⟩
    let append : Merger := fun _ current incoming =>
      .ok ⟨.json, (current.map (·.payload)).getD [] ++ incoming.payload⟩
    let store : Store :=
      (Store.empty.writeOne ⟨⟨[97]⟩, ⟨.json, [49]⟩, .none⟩).2
    let g : WriteGroup :=
      { address := ⟨[97]⟩
        operations :=
          [⟨0, ⟨[97]⟩, false, .merge ⟨⟨.json, [50]⟩, append⟩⟩,
            ⟨1, ⟨[97]⟩, false, .put ⟨⟨.json, [51]⟩, .recordNotExists, .inr (.inr rfl)⟩⟩,
            ⟨2, ⟨[97]⟩, false, .merge ⟨⟨.json, [52]⟩, append⟩⟩]
        nonempty := by simp
        sameAddress := by simp }
    ∃ s w results store',
      compute (x.executeWriteGroups 1 [g]) (.initial x) ⟨store, 0, 0⟩ = some (.ok (), s, w) ∧
      runSequentially x 1 g.operations store = some (results, store') ∧
      g.operations.map (fun op => (s.results op.index).report) = results.map (·.report) ∧
      (w.store.records g.address).map (·.document) = (store'.records g.address).map (·.document) ∧
      w.reads ≤ 1 ∧ w.writes ≤ 1 := by
  intro x append store g
  refine executeWriteGroups_sequential ⟨rfl, by decide, by decide⟩ 0 rfl (by decide) store ⟨?_, ?_⟩
  · intro record hrecord
    cases hrecord
    decide
  · intro d hd
    have hmem : d ∈ ([⟨.json, [49, 50]⟩, ⟨.json, [49, 50, 52]⟩] : List Document) :=
      mem_filterMap (f := Except.toOption).mpr ⟨_, hd, rfl⟩
    simp only [mem_cons, not_mem_nil, or_false] at hmem
    rcases hmem with rfl | rfl <;> decide

end Sink
