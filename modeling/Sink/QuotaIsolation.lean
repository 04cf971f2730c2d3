import Sink.GroupFacts

/-!
# A refused caller leaves no trace

`prepareBatchedWriteGroup` charges every run of operations to its caller
and drops the runs that do not fit. The main theorem compares it with the
plain fold of the chain from which the refused runs were deleted: same
candidate, same precondition, same answers for everybody else.

The simulation is on the pair (candidate, working snapshot): a kept run
moves it as the plain fold does, a refused run leaves it alone.
-/

namespace Sink

open Interact List

def runOperations (runs : List (Nat × List ParsedWrite)) : List ParsedWrite :=
  runs.flatMap (·.2)

/-- The operations of the runs with a verdict satisfying `p`. -/
def selectRuns (p : RunVerdict → Bool) :
    List (Nat × List ParsedWrite) → List RunVerdict → List ParsedWrite
  | (_, part) :: runs, verdict :: verdicts =>
    if p verdict then part ++ selectRuns p runs verdicts else selectRuns p runs verdicts
  | _, _ => []

/-- The chain without the refused runs. -/
abbrev keptOperations := selectRuns fun verdict => decide (verdict = .kept)

abbrev refusedOperations := selectRuns fun verdict => decide (verdict ≠ .kept)

theorem runOperations_ownerRuns (owner : Nat → Nat) (ops : List ParsedWrite) :
    runOperations (ownerRuns owner ops) = ops := by
  induction ops with
  | nil => rfl
  | cons op ops ih =>
    unfold ownerRuns
    split
    · rename_i hnil
      rw [hnil] at ih
      rw [← ih]
      rfl
    · rename_i o part rest hcons
      rw [hcons] at ih
      split <;> simp [runOperations, ← ih]

variable {runs : List (Nat × List ParsedWrite)}

theorem selectRuns_sublist (p : RunVerdict → Bool) (runs : List (Nat × List ParsedWrite))
    (verdicts : List RunVerdict) : (selectRuns p runs verdicts).Sublist (runOperations runs) := by
  induction runs generalizing verdicts with
  | nil => simp [selectRuns]
  | cons run runs ih =>
    cases verdicts with
    | nil => simp [selectRuns]
    | cons verdict verdicts =>
      simp only [selectRuns, runOperations, flatMap_cons]
      split
      · exact Sublist.append (Sublist.refl _) (ih verdicts)
      · exact (ih verdicts).trans (sublist_append_right _ _)

theorem mem_runOperations_of_mem_selectRuns {p verdicts op} (h : op ∈ selectRuns p runs verdicts) :
    op ∈ runOperations runs :=
  (selectRuns_sublist p runs verdicts).subset h

/-! ## One run -/

variable (ctx : Nat → Bool) (part : List ParsedWrite) (st st' : BatchedState)

/-- What a kept run does: it moves candidate and snapshot as the plain fold. -/
structure KeptStep : Prop where
  candidate : st'.candidate = mergeCandidates st.candidate
    (foldOperations ctx part ⟨none, st.current, st.results⟩).candidate
  current : st'.current = afterAll ctx part st.current
  results : st'.results = (foldOperations ctx part ⟨none, st.current, st.results⟩).results

/-- What a refused run does: every operation of it fails with a budget
refusal, nothing else moves. -/
structure RefusedStep :
    Prop where
  candidate : st'.candidate = st.candidate
  current : st'.current = st.current
  results : ∃ (mid : Results) (b : BudgetCell) (size : Int),
    (mid = st.results ∨ mid = (foldOperations ctx part ⟨none, st.current, st.results⟩).results) ∧
      st'.results = applyWriteGroupResult part mid (.ofError (b.refusal size))

theorem chargeInput_ok {owner : Nat} {st st' : BatchedState} (h : chargeInput owner st = .ok st') :
    ∃ inputs, st' = { st with inputs } := by
  unfold chargeInput at h
  split at h
  · split at h
    · cases h
    · exact ⟨_, (Except.ok.inj h).symm⟩
  · exact ⟨st.inputs, (Except.ok.inj h).symm⟩

theorem chargeInput_error {owner st e} (h : chargeInput owner st = .error e) :
    ∃ (b : BudgetCell) (size : Int), e = b.refusal size := by
  unfold chargeInput at h
  split at h
  · split at h
    · rename_i hres
      cases h
      exact ⟨_, _, (BudgetCell.reserve_error hres).2⟩
    · cases h
  · cases h

section

variable (ctx : Nat → Bool)

theorem prepareRun_cases (st : BatchedState) (owner : Nat) (part : List ParsedWrite) :
    ((prepareRun ctx st owner part).1 = .kept ∧
        KeptStep ctx part st (prepareRun ctx st owner part).2) ∨
      ((prepareRun ctx st owner part).1 ≠ .kept ∧
        RefusedStep ctx part st (prepareRun ctx st owner part).2) := by
  unfold prepareRun
  split
  · rename_i e hcharge
    obtain ⟨b, size, rfl⟩ := chargeInput_error hcharge
    exact .inr ⟨by simp, rfl, rfl, st.results, b, size, .inl rfl, rfl⟩
  · rename_i st₁ hcharge
    obtain ⟨inputs, rfl⟩ := chargeInput_ok hcharge
    have hafter := afterAll_eq ctx part st.current st.results
    split
    · rename_i results hprep
      obtain ⟨hc, rfl⟩ := Prod.mk.inj hprep
      rw [hc] at hafter
      exact .inl ⟨rfl, by rw [hc]; rfl, hafter.symm, rfl⟩
    · rename_i prepared results hprep
      obtain ⟨hc, rfl⟩ := Prod.mk.inj hprep
      rw [hc] at hafter
      split
      · rename_i e hres
        obtain ⟨-, rfl⟩ := BudgetCell.reserve_error hres
        exact .inr ⟨by simp, rfl, rfl, _, _, _, .inr rfl, rfl⟩
      · exact .inl ⟨rfl, by rw [hc]; rfl, hafter.symm, rfl⟩

/-- A budget of the caller refuses the run: its input the working document, or
its output what the run makes of that. -/
def Overdrawn (part : List ParsedWrite) (st : BatchedState) (owner : Nat) : Prop :=
  (st.current.status = .found ∧ (st.inputs owner).refuses st.current.document.size) ∨
    ∃ w, (prepareWriteGroup ctx part st.current st.results).1 = some w ∧
      (st.outputs owner).refuses w.document.size

theorem prepareRun_kept_iff (part : List ParsedWrite) (st : BatchedState) (owner : Nat) :
    (prepareRun ctx st owner part).1 = .kept ↔ ¬ Overdrawn ctx part st owner := by
  unfold prepareRun chargeInput Overdrawn BudgetCell.reserve
  cases hprep : prepareWriteGroup ctx part st.current st.results with
  | mk w results =>
    by_cases hfound : st.current.status = .found <;>
      by_cases hinput : (st.inputs owner).refuses st.current.document.size <;> cases w with
      | none => simp [hfound, hinput, hprep]
      | some w => by_cases houtput : (st.outputs owner).refuses w.document.size <;>
          simp [hfound, hinput, hprep, houtput]

/-! ## All runs -/

theorem prepareRuns_cons (owner : Nat) (part : List ParsedWrite)
    (runs : List (Nat × List ParsedWrite)) (st : BatchedState) :
    prepareRuns ctx ((owner, part) :: runs) st =
      ((prepareRun ctx st owner part).1 ::
          (prepareRuns ctx runs (prepareRun ctx st owner part).2).1,
        (prepareRuns ctx runs (prepareRun ctx st owner part).2).2) := rfl

/-- A verdict, on the budgets as the runs before left them. -/
theorem prepareRuns_verdict (front rest : List (Nat × List ParsedWrite)) (owner : Nat)
    (part : List ParsedWrite) (st : BatchedState) :
    (prepareRuns ctx (front ++ (owner, part) :: rest) st).1[front.length]? =
      some (prepareRun ctx (prepareRuns ctx front st).2 owner part).1 := by
  induction front generalizing st with
  | nil => rfl
  | cons run front ih => exact ih _

theorem prepareRun_results_of_notMem (st : BatchedState) (owner : Nat)
    {part : List ParsedWrite} {i : Nat} (hi : ∀ op ∈ part, op.index ≠ i) :
    (prepareRun ctx st owner part).2.results i = st.results i := by
  rcases prepareRun_cases ctx st owner part with ⟨-, hstep⟩ | ⟨-, hstep⟩
  · rw [hstep.results]
    exact foldOperations_results_of_notMem ctx part hi
  obtain ⟨mid, b, size, hmid, hres⟩ := hstep.results
  rw [hres, applyWriteGroupResult_of_notMem hi]
  rcases hmid with rfl | rfl
  · rfl
  · exact foldOperations_results_of_notMem ctx part hi

theorem prepareRuns_results_of_notMem (st : BatchedState)
    {i : Nat} (hi : ∀ op ∈ runOperations runs, op.index ≠ i) :
    (prepareRuns ctx runs st).2.results i = st.results i := by
  induction runs generalizing st with
  | nil => rfl
  | cons run runs ih =>
    obtain ⟨owner, part⟩ := run
    simp only [runOperations, flatMap_cons, mem_append] at hi
    rw [prepareRuns_cons, ih _ fun op hop => hi op (.inr hop)]
    exact prepareRun_results_of_notMem ctx st owner fun op hop => hi op (.inl hop)

theorem prepareRuns_preserves {ctx : Nat → Bool} {P : WriteResult → Prop} {i : Nat}
    (hfold : ∀ part st, P (st.results i) → P ((foldOperations ctx part st).results i))
    (hrefuse : ∀ (b : BudgetCell) size r, P r → P (applyGroupResult (.ofError (b.refusal size)) r))
    (runs : List (Nat × List ParsedWrite)) (st : BatchedState) (h : P (st.results i)) :
    P ((prepareRuns ctx runs st).2.results i) := by
  induction runs generalizing st with
  | nil => exact h
  | cons run runs ih =>
    obtain ⟨owner, part⟩ := run
    rw [prepareRuns_cons]
    refine ih _ ?_
    rcases prepareRun_cases ctx st owner part with ⟨-, hstep⟩ | ⟨-, hstep⟩
    · rw [hstep.results]
      exact hfold part _ h
    obtain ⟨mid, b, size, hmid, hres⟩ := hstep.results
    rw [hres]
    refine updateEach_preserves (fun _ => hrefuse b size) part ?_
    rcases hmid with rfl | rfl
    · exact h
    · exact hfold part _ h

theorem prepareRuns_operationIndex (runs : List (Nat × List ParsedWrite))
    (st : BatchedState) (i : Nat) :
    ((prepareRuns ctx runs st).2.results i).operationIndex = (st.results i).operationIndex :=
  prepareRuns_preserves (P := fun r => r.operationIndex = (st.results i).operationIndex)
    (fun part st' h => (foldOperations_operationIndex ctx part st' i).trans h)
    (fun _ _ r h => (applyGroupResult_operationIndex _ r).trans h) runs st rfl

structure Follows (kept : List ParsedWrite) (st : BatchedState) (plain : FoldState) : Prop where
  candidate : st.candidate = plain.candidate
  current : st.current = plain.current
  results : ∀ op ∈ kept, st.results op.index = plain.results op.index

/-- Runs apart have no operation in common. -/
theorem runs_apart {owner : Nat} {part : List ParsedWrite}
    (hnd : ((runOperations ((owner, part) :: runs)).map (·.index)).Nodup) :
    (part.map (·.index)).Nodup ∧ ((runOperations runs).map (·.index)).Nodup ∧
      (∀ op ∈ runOperations runs, ∀ o ∈ part, o.index ≠ op.index) ∧
      ∀ op ∈ part, ∀ o ∈ runOperations runs, o.index ≠ op.index := by
  simp only [runOperations, flatMap_cons, map_append] at hnd
  obtain ⟨hpart, hrest, hdisj⟩ := nodup_append.mp hnd
  exact ⟨hpart, hrest, fun op hop o ho => hdisj _ (mem_map_of_mem ho) _ (mem_map_of_mem hop),
    fun op hop o ho => (hdisj _ (mem_map_of_mem hop) _ (mem_map_of_mem ho)).symm⟩

theorem prepareRuns_follows (runs : List (Nat × List ParsedWrite))
    (hnd : ((runOperations runs).map (·.index)).Nodup) (st : BatchedState) (plain : FoldState)
    (hcand : st.candidate = plain.candidate) (hcur : st.current = plain.current)
    (hres : ∀ op ∈ runOperations runs, st.results op.index = plain.results op.index) :
    Follows (keptOperations runs (prepareRuns ctx runs st).1) (prepareRuns ctx runs st).2
      (foldOperations ctx (keptOperations runs (prepareRuns ctx runs st).1) plain) := by
  induction runs generalizing st plain with
  | nil => exact ⟨hcand, hcur, by simp [keptOperations, selectRuns]⟩
  | cons run runs ih =>
    obtain ⟨owner, part⟩ := run
    obtain ⟨-, hrest, happart, hback⟩ := runs_apart hnd
    simp only [runOperations, flatMap_cons, mem_append] at hres
    rw [prepareRuns_cons]
    rcases prepareRun_cases ctx st owner part with ⟨hv, hstep⟩ | ⟨hv, hstep⟩
    · -- a kept run: both sides fold the same operations from the same snapshot
      simp only [keptOperations, selectRuns, hv, decide_true, if_true, foldOperations_append]
      have hplain : (foldOperations ctx part plain).candidate =
          (prepareRun ctx st owner part).2.candidate := by
        rw [hstep.candidate, hcand, hcur]
        exact foldOperations_candidate ctx part plain.candidate plain.current plain.results _
      have hsame : ∀ i, st.results i = plain.results i →
          (prepareRun ctx st owner part).2.results i =
            (foldOperations ctx part plain).results i := fun i hi => by
        rw [hstep.results]
        exact foldOperations_results_congr ctx part hcur hi
      obtain ⟨hc, hs, hr⟩ := ih hrest (prepareRun ctx st owner part).2
        (foldOperations ctx part plain) hplain.symm
        (by rw [hstep.current, foldOperations_current, hcur])
        (fun op hop => hsame _ (hres op (.inr hop)))
      refine ⟨hc, hs, fun op hop => ?_⟩
      rcases mem_append.mp hop with hop | hop
      · rw [prepareRuns_results_of_notMem ctx _ (hback op hop), foldOperations_results_of_notMem ctx
          _ fun o ho => hback op hop o (mem_runOperations_of_mem_selectRuns ho)]
        exact hsame _ (hres op (.inl hop))
      · exact hr op hop
    · -- a refused run: the plain side skips it
      simp only [keptOperations, selectRuns, hv, decide_false, Bool.false_eq_true, if_false]
      refine ih hrest _ plain (hstep.candidate.trans hcand) (hstep.current.trans hcur)
        fun op hop => ?_
      rw [prepareRun_results_of_notMem ctx st owner (happart op hop)]
      exact hres op (.inr hop)

/-! ## Refused operations -/

theorem applyGroupResult_refusal (b : BudgetCell) (size : Int) (result : WriteResult) :
    let refused := applyGroupResult (.ofError (b.refusal size)) result
    refused.status = .failed ∧ ∃ failure, refused.failure = some failure ∧
      failure.code = .resourceExhausted := by
  exact ⟨rfl, _, rfl, rfl⟩

theorem prepareRuns_refused (runs : List (Nat × List ParsedWrite))
    (hnd : ((runOperations runs).map (·.index)).Nodup) (st : BatchedState) {op : ParsedWrite}
    (hop : op ∈ refusedOperations runs (prepareRuns ctx runs st).1) :
    ((prepareRuns ctx runs st).2.results op.index).status = .failed ∧
      ∃ failure, ((prepareRuns ctx runs st).2.results op.index).failure = some failure ∧
        failure.code = .resourceExhausted := by
  induction runs generalizing st with
  | nil => simp [refusedOperations, selectRuns] at hop
  | cons run runs ih =>
    obtain ⟨owner, part⟩ := run
    obtain ⟨hpart, hrest, -, hback⟩ := runs_apart hnd
    rw [prepareRuns_cons] at hop ⊢
    rcases prepareRun_cases ctx st owner part with ⟨hv, hstep⟩ | ⟨hv, hstep⟩
    · simp only [refusedOperations, selectRuns, hv, ne_eq, not_true_eq_false, decide_false,
        Bool.false_eq_true, if_false] at hop
      exact ih hrest _ hop
    · simp only [refusedOperations, selectRuns, ne_eq, hv, not_false_eq_true, decide_true,
        if_true, mem_append] at hop
      rcases hop with hop | hop
      · obtain ⟨mid, b, size, -, hres⟩ := hstep.results
        have hsame : (prepareRuns ctx runs (prepareRun ctx st owner part).2).2.results op.index =
            applyGroupResult (.ofError (b.refusal size)) (mid op.index) := by
          rw [prepareRuns_results_of_notMem ctx _ (hback op hop), hres]
          exact applyWriteGroupResult_of_mem hpart hop
        simp only [hsame]
        exact applyGroupResult_refusal b size _
      · exact ih hrest _ hop

end

/-- A caller refused for quota leaves no trace in the folded document. The
batched evaluation agrees with the plain evaluation of the chain without the
refused runs; the refused operations are quota failures, also after the rest
of the group was committed. -/
theorem prepareBatchedWriteGroup_without_refused (ctx : Nat → Bool) (owner : Nat → Nat)
    (ops : List ParsedWrite) (hnd : (ops.map (·.index)).Nodup) (stored : Storage.ReadResult)
    (results : Results) (inputs outputs : Nat → BudgetCell) :
    let runs := ownerRuns owner ops
    let verdicts := (prepareRuns ctx runs ⟨none, stored, results, inputs, outputs⟩).1
    let batched := prepareBatchedWriteGroup ctx owner ops stored results inputs outputs
    let kept := keptOperations runs verdicts
    let plain := prepareWriteGroup ctx kept stored results
    batched.candidate = plain.1 ∧ (∀ op ∈ kept, batched.results op.index = plain.2 op.index) ∧
      (∀ op ∈ refusedOperations runs verdicts,
        (∃ failure, (batched.results op.index).failure = some failure ∧
          failure.code = .resourceExhausted) ∧
        ∀ revision err, (applyWriteGroupResult ops batched.results
          ⟨.applied, revision, err⟩ op.index).status ≠ .applied) ∧
      (batched.candidate.isSome ↔ ∃ op ∈ kept, (batched.results op.index).failure = none) ∧
      -- a run is refused exactly if a budget of its caller is overdrawn
      ∀ front caller part rest, runs = front ++ (caller, part) :: rest →
        (verdicts[front.length]? = some .kept ↔ ¬ Overdrawn ctx part
          (prepareRuns ctx front ⟨none, stored, results, inputs, outputs⟩).2 caller) := by
  intro runs verdicts batched kept plain
  have hruns : runOperations runs = ops := runOperations_ownerRuns owner ops
  have hnd' : ((runOperations runs).map (·.index)).Nodup := by rwa [hruns]
  have hkept : (kept.map (·.index)).Nodup :=
    ((selectRuns_sublist _ runs verdicts).map _).nodup hnd'
  obtain ⟨hc, -, hr⟩ := prepareRuns_follows ctx runs hnd'
    ⟨none, stored, results, inputs, outputs⟩ ⟨none, stored, results⟩ rfl rfl fun _ _ => rfl
  have hcand : batched.candidate = plain.1 := hc
  have hsame : ∀ op ∈ kept, batched.results op.index = plain.2 op.index := hr
  refine ⟨hcand, hsame, fun op hop => ?_, ?_, fun front caller part rest hsplit => ?_⟩
  · have hrefused : (batched.results op.index).status = .failed ∧ ∃ failure,
        (batched.results op.index).failure = some failure ∧ failure.code = .resourceExhausted :=
      prepareRuns_refused ctx runs hnd' _ hop
    obtain ⟨hstatus, failure, hf, hcode⟩ := hrefused
    have hmem : op ∈ ops := hruns ▸ mem_runOperations_of_mem_selectRuns hop
    refine ⟨⟨failure, hf, hcode⟩, fun revision err => ?_⟩
    rw [applyWriteGroupResult_of_mem hnd hmem, applyGroupResult_failed rfl (by rw [hf]; rfl)]
    simp [hstatus]
  · rw [hcand]
    refine (foldOperations_candidate_isSome ctx hkept stored results).trans ?_
    refine exists_congr fun op => and_congr_right fun hop => ?_
    rw [hsame op hop]
    rfl
  · show (prepareRuns ctx runs _).1[_]? = _ ↔ _
    rw [hsplit, prepareRuns_verdict, Option.some.injEq, prepareRun_kept_iff]

/-- Three callers put to one record. The second has no output budget and the
third no input budget left, so the folded document is the first caller's. -/
theorem prepareBatchedWriteGroup_without_refused_second :
    let ops := [upsert 0 ⟨[97]⟩ [1], upsert 1 ⟨[97]⟩ [2], upsert 2 ⟨[97]⟩ [3]]
    let stored : Storage.ReadResult := ⟨.found, ⟨.json, [9]⟩, [5], none⟩
    let room (empty owner : Nat) : BudgetCell := if owner = empty then .newTracked 0 else .new 1000
    let batched := prepareBatchedWriteGroup (fun _ => false) id ops stored .new (room 2) (room 1)
    (prepareRuns (fun _ => false) (ownerRuns id ops) ⟨none, stored, .new, room 2, room 1⟩).1 =
        [.kept, .outputRefused, .inputRefused] ∧
      batched.candidate = some ⟨⟨[97]⟩, ⟨.json, [1]⟩, .revisionMatches [5]⟩ ∧
      batched.candidate =
        (prepareWriteGroup (fun _ => false) [upsert 0 ⟨[97]⟩ [1]] stored .new).1 :=
  ⟨rfl, rfl, (prepareBatchedWriteGroup_without_refused (fun _ => false) id _ (by decide) _ _ _ _).1⟩

end Sink
