import Sink.Lib.Keeps
import Sink.QuotaIsolation
import Sink.WriteExec

/-!
# The footprint of an execution

Executing groups reads and writes only the records of those groups, touches
only the results of their operations, and publishes only those. So a world
that watches something else does not notice it. Every function of the
executor is checked once against `Frames`; proofs about one group skip all
work on other groups with these lemmas.
-/

namespace Sink

open Interact Interact.Exec List

variable {W : Type}

/-- The call concerns only records and operations of the groups. -/
def Call.Within (gs : List WriteGroup) : Call → Prop
  | .evaluate address => ∃ g ∈ gs, g.address = address
  | .read ops _ => ∀ op ∈ ops, ∃ g ∈ gs, g.address = op.address
  | .write ops _ => ∀ op ∈ ops, ∃ g ∈ gs, g.address = op.address
  | .complete results => ∀ p ∈ results, ∃ g ∈ gs, ∃ op ∈ g.operations, op.index = p.1
  | .delete _ _ => False
  | .admitRequest _ => False
  | .publishGrow _ => False
  | .publish _ => False
  | _ => True

/-- The world does not notice work on the groups. -/
def Unseen (M : World Call Reply W) (gs : List WriteGroup) : Prop :=
  ∀ c : Call, c.Within gs → ∀ w, M.allowed w c ∧ ∀ r w', M.answer w c r w' → w' = w

/-- Only results of the groups' operations moved, and none lost its index. -/
structure Framed (gs : List WriteGroup) (s s' : ExecState) : Prop where
  results : ∀ i, (∀ g ∈ gs, ∀ op ∈ g.operations, op.index ≠ i) → s'.results i = s.results i
  index : ∀ i, (s'.results i).operationIndex = (s.results i).operationIndex

instance (gs : List WriteGroup) : Std.Refl (Framed gs) where
  refl _ := ⟨fun _ _ => rfl, fun _ => rfl⟩

instance (gs : List WriteGroup) : IsTrans ExecState (Framed gs) where
  trans _ _ _ h₁ h₂ :=
    ⟨fun i hi => (h₂.results i hi).trans (h₁.results i hi),
      fun i => (h₂.index i).trans (h₁.index i)⟩

theorem Framed.of_results {gs : List WriteGroup} {s s' : ExecState}
    (h : s'.results = s.results) : Framed gs s s' :=
  ⟨fun i _ => congrFun h i, fun i => congrArg WriteResult.operationIndex (congrFun h i)⟩

/-- Work on the groups only. -/
abbrev Frames (M : World Call Reply W) (gs : List WriteGroup) {α : Type} (x : ServerM α)
    (P : α → Prop) : Prop :=
  Keeps M (Framed gs) (fun _ => True) x P

/-- Besides, the reservation and the commit mode are as they were. -/
structure Held (gs : List WriteGroup) (s s' : ExecState) : Prop extends Framed gs s s' where
  reservation : s'.reservation = s.reservation
  finalCommit : s'.attempt.finalCommit = s.attempt.finalCommit

instance (gs : List WriteGroup) : Std.Refl (Held gs) where
  refl s := ⟨Std.Refl.refl s, rfl, rfl⟩

instance (gs : List WriteGroup) : IsTrans ExecState (Held gs) where
  trans _ _ _ h₁ h₂ :=
    ⟨IsTrans.trans _ _ _ h₁.toFramed h₂.toFramed, h₂.reservation.trans h₁.reservation,
      h₂.finalCommit.trans h₁.finalCommit⟩

def NotExhausted (e : GoError) : Prop := e.statusCode ≠ .resourceExhausted

/-- Work on the groups that leaves the reservation alone. The functions
below the commits are of this kind. -/
abbrev Holds (M : World Call Reply W) (gs : List WriteGroup) {α : Type} (x : ServerM α)
    (P : α → Prop) : Prop :=
  Keeps M (Held gs) NotExhausted x P

variable {M : World Call Reply W} {gs : List WriteGroup}
  {f : ParsedWrite → WriteResult → WriteResult}

/-- Work that holds the reservation is work on the groups. -/
theorem holds_frames {α : Type} {x : ServerM α} {P : α → Prop} (hx : Holds M gs x P) :
    Frames M gs x P :=
  hx.weaken (fun _ _ h => h.toFramed) (fun _ _ => trivial) fun _ h => h

/-! ## Result updates -/

variable {g : WriteGroup}

theorem Framed.updateEach (hg : g ∈ gs) (s : ExecState)
    (hf : ∀ op r, (f op r).operationIndex = r.operationIndex) :
    Framed gs s { s with results := updateEach (·.index) f g.operations s.results } where
  results _ hi := updateEach_of_notMem (hi g hg)
  index i :=
    updateEach_preserves (P := fun r => r.operationIndex = (s.results i).operationIndex)
      (fun op r h => (hf op r).trans h) g.operations rfl


/-- An update of the results of a group reaches no other result. -/
theorem setResults_holds (hg : g ∈ gs) (hf : ∀ op r, (f op r).operationIndex = r.operationIndex) :
    Holds M gs (setResults (updateEach (·.index) f g.operations)) fun _ => True :=
  .modify fun s => ⟨.updateEach hg s hf, rfl, rfl⟩

theorem setAttempt_frames (f : WriteAttempt → WriteAttempt) :
    Frames M gs (setAttempt f) fun _ => True :=
  .modify fun _ => .of_results rfl

theorem setAttempt_holds {f : WriteAttempt → WriteAttempt}
    (hf : ∀ a, (f a).finalCommit = a.finalCommit) : Holds M gs (setAttempt f) fun _ => True :=
  .modify fun s => ⟨.of_results rfl, rfl, hf s.attempt⟩

theorem setReturns_holds (r : WriteReturns) : Holds M gs (setReturns r) fun _ => True :=
  .modify fun _ => ⟨.of_results rfl, rfl, rfl⟩

variable (hM : Unseen M gs)

include hM

theorem ask_holds {c : Call} (hc : c.Within gs) : Holds M gs (ask c) fun _ => True :=
  .call (hM c hc)

theorem ask_frames {c : Call} (hc : c.Within gs) : Frames M gs (ask c) fun _ => True :=
  .call (hM c hc)

theorem contextError_holds : Holds M gs contextError fun _ => True := by
  refine (ask_holds hM (c := .contextErr) trivial).seq fun err => ?_
  cases err with
  | none => exact .pure trivial
  | some e => exact .fail e.error_statusCode_ne_resourceExhausted

namespace WriteExecution

variable (x : WriteExecution)
variable {g : WriteGroup} {candidates : List Candidate} {groups : List WriteGroup}
  {w : Storage.WriteOperation}

/-! ## Memory and returned documents -/

theorem shrinkLease_holds (bytes : Int) : Holds M gs (x.shrinkLease bytes) fun _ => True := by
  unfold shrinkLease
  split
  · exact ask_holds hM trivial
  · exact .pure trivial

theorem growLease_holds (bytes : Int) : Holds M gs (x.growLease bytes) fun _ => True := by
  unfold growLease
  split
  · exact ask_holds hM (c := .leaseGrow bytes) trivial
  · exact .pure trivial

/-- A resize moves the reservation only, so the groups are framed but not held. -/
theorem resize_frames (bytes : Int) : Frames M gs (x.resize bytes) fun _ => True := by
  unfold resize
  split
  · refine (ask_frames hM (c := .leaseBytes) trivial).seq fun current => ?_
    split
    · exact (ask_frames hM (c := .leaseShrink _) trivial).seq fun _ => .pure trivial
    · exact ask_frames hM (c := .leaseGrow _) trivial
  · refine (ask_frames hM (c := .lockPool) trivial).seq fun pool => ?_
    refine Keeps.get.seq fun s => ?_
    refine Keeps.seq (.modify fun _ => .of_results rfl) fun _ => ?_
    exact (ask_frames hM (c := .unlockPool _) trivial).seq fun _ => .pure trivial

theorem output_holds (owner : Nat) (bytes : Int) :
    Holds M gs (x.output owner bytes) fun _ => True := by
  unfold output
  split
  · exact ask_holds hM (c := .output owner bytes) trivial
  · exact .pure trivial

theorem releaseOutput_holds (owner : Nat) (bytes : Int) :
    Holds M gs (x.releaseOutput owner bytes) fun _ => True := by
  unfold releaseOutput
  split
  · exact ask_holds hM trivial
  · exact .pure trivial

def QuotaError (err : Option GoError) : Prop :=
  ∀ e, err = some e → e.errorDetails.1 = .resourceExhausted

theorem reserveReturn_holds (document : Document) (op : ParsedWrite) :
    Holds M gs (x.reserveReturn document op) QuotaError := by
  have hnone : QuotaError none := by simp [QuotaError]
  refine Keeps.get.seq fun s => ?_
  split
  · exact .pure hnone
  split
  · dsimp only
    split
    · exact .pure (by rintro _ ⟨⟩; rfl)
    refine (x.output_holds hM _ _).seq fun grown => ?_
    cases grown with
    | some e => exact .pure (by rintro _ ⟨⟩; rfl)
    | none => exact (setReturns_holds _).seq fun _ => .pure hnone
  · exact .pure hnone

/-- Reserving returned documents fails with a quota error or not at all. -/
theorem reserveReturns_holds (document : Document) :
    ∀ ops : List ParsedWrite, Holds M gs (x.reserveReturns document ops) QuotaError
  | [] => .pure (by simp [QuotaError])
  | op :: ops => by
    refine (x.reserveReturn_holds hM document op).bind fun err herr => ?_
    cases err with
    | some e => exact .pure herr
    | none => exact reserveReturns_holds document ops

theorem settleReturn_holds (op : ParsedWrite) : Holds M gs (x.settleReturn op) fun _ => True := by
  refine Keeps.get.seq fun s => ?_
  split
  · exact .pure trivial
  · exact (setReturns_holds _).seq fun _ => x.releaseOutput_holds hM _ _

theorem settleReturns_holds :
    ∀ ops : List ParsedWrite, Holds M gs (x.settleReturns ops) fun _ => True
  | [] => .pure trivial
  | op :: ops => (x.settleReturn_holds hM op).seq fun _ => settleReturns_holds ops

/-! ## Settling -/

/-- A group is published with its own operations only. -/
theorem complete_holds (hg : g ∈ gs) : Holds M gs (x.complete g.operations) fun _ => True := by
  refine (x.settleReturns_holds hM _).seq fun _ => Keeps.get.seq fun s => ?_
  refine ask_holds hM fun p hp => ?_
  obtain ⟨op, hop, rfl⟩ := mem_map.mp hp
  exact ⟨g, hg, op, hop, rfl⟩

theorem settleGroup_holds (hg : g ∈ gs) (stored : Storage.WriteResult) :
    Holds M gs (x.settleGroup g.operations stored) fun _ => True :=
  (setResults_holds hg fun _ => applyGroupResult_operationIndex stored).seq fun _ =>
    x.complete_holds hM hg

theorem settleStored_holds (hg : g ∈ gs) (stored : Storage.WriteResult) (document : Document) :
    Holds M gs (x.settleStored g.operations stored document) fun _ => True := by
  refine Keeps.seq (.modify fun s => ?_) fun _ => x.complete_holds hM hg
  have h₁ : Framed gs s _ := .updateEach hg s fun _ => applyGroupResult_operationIndex stored
  have h₂ := Framed.updateEach hg
    { s with results := applyWriteGroupResult g.operations s.results stored }
    fun op => attachDocument_operationIndex op.returnDocument document
  exact ⟨IsTrans.trans _ _ _ h₁ h₂, rfl, rfl⟩

def CandidatesOf (gs : List WriteGroup) (candidates : List Candidate) : Prop :=
  ∀ c ∈ candidates, c.1 ∈ gs ∧ c.2.address = c.1.address

theorem reservePuts_holds :
    ∀ groups : List WriteGroup, groups ⊆ gs →
      Holds M gs (x.reservePuts groups) (CandidatesOf gs)
  | [], _ => .pure (by simp [CandidatesOf])
  | g :: groups, hgs => by
    have hg := hgs mem_cons_self
    have hrest := reservePuts_holds groups (cons_subset.mp hgs).2
    unfold reservePuts
    split
    · exact hrest
    refine (x.reserveReturns_holds hM _ _).bind fun err _ => ?_
    cases err with
    | some e => exact (x.settleGroup_holds hM hg _).seq fun _ => hrest
    | none =>
      refine hrest.bind fun rest hcands => .pure ?_
      exact forall_mem_cons.mpr ⟨⟨hg, rfl⟩, hcands⟩

theorem settlePuts_holds :
    ∀ pairs : List (Candidate × Storage.WriteResult), (∀ p ∈ pairs, p.1.1 ∈ gs) →
      Holds M gs (x.settlePuts pairs) fun _ => True
  | [], _ => .pure trivial
  | ((_, op), stored) :: rest, h =>
    (x.settleStored_holds hM (h _ mem_cons_self) stored op.document).seq fun _ =>
      settlePuts_holds rest (forall_mem_cons.mp h).2

omit hM in
theorem write_within (h : CandidatesOf gs candidates) (visible : Bool) :
    (Call.write (candidates.map (·.2)) visible).Within gs := by
  intro op hop
  obtain ⟨c, hc, rfl⟩ := mem_map.mp hop
  obtain ⟨hg, ha⟩ := h c hc
  exact ⟨c.1, hg, ha.symm⟩

omit hM in
theorem zip_mem_groups (h : CandidatesOf gs candidates) (stored : List Storage.WriteResult) :
    ∀ p ∈ candidates.zip stored, p.1.1 ∈ gs :=
  fun p hp => (h p.1 (of_mem_zip (a := p.1) (b := p.2) hp).1).1

/-- Direct puts write their own records in one request and settle each. -/
theorem executePuts_holds (hgs : groups ⊆ gs) :
    Holds M gs (x.executePuts groups) fun _ => True := by
  refine (x.reservePuts_holds hM groups hgs).bind fun planned hplanned => ?_
  split
  · exact .pure trivial
  refine (ask_holds hM (write_within hplanned _)).seq fun response => ?_
  cases response with
  | error e => exact .fail (by simp [NotExhausted, GoError.statusCode])
  | ok stored =>
    dsimp only
    split
    · exact .fail (by simp [NotExhausted, GoError.statusCode])
    · exact x.settlePuts_holds hM _ (zip_mem_groups hplanned stored)

/-! ## Committing -/

theorem failCandidates_holds (err : GoError) :
    ∀ candidates : List Candidate, CandidatesOf gs candidates →
      Holds M gs (x.failCandidates err candidates) fun _ => True
  | [], _ => .pure trivial
  | (_, _) :: rest, h =>
    (x.settleGroup_holds hM (h _ mem_cons_self).1 _).seq fun _ =>
      failCandidates_holds err rest (forall_mem_cons.mp h).2

theorem settleCandidates_holds :
    ∀ pairs : List (Candidate × Storage.WriteResult), (∀ p ∈ pairs, p.1.1 ∈ gs) →
      Holds M gs (x.settleCandidates pairs) fun next => next ⊆ gs
  | [], _ => .pure (by simp)
  | ((g, op), stored) :: rest, h => by
    have hg : g ∈ gs := h _ mem_cons_self
    have hrest := settleCandidates_holds rest (forall_mem_cons.mp h).2
    unfold settleCandidates
    split
    · refine hrest.bind fun next hnext => .pure ?_
      exact cons_subset.mpr ⟨hg, hnext⟩
    · exact (x.settleStored_holds hM hg stored op.document).seq fun _ => hrest

theorem writeCandidates_holds (h : CandidatesOf gs candidates) :
    Holds M gs (x.writeCandidates candidates) fun next => next ⊆ gs := by
  refine (ask_holds hM (write_within h _)).seq fun response => ?_
  cases response with
  | error e => exact .fail (by simp [NotExhausted, GoError.statusCode])
  | ok stored =>
    dsimp only
    split
    · exact .fail (by simp [NotExhausted, GoError.statusCode])
    · exact x.settleCandidates_holds hM _ (zip_mem_groups h stored)

/-- A commit reaches the records of its candidates, and what it hands back to
the next attempt are groups of its own. -/
theorem commitWriteCandidates_frames (h : CandidatesOf gs candidates) :
    Frames M gs (x.commitWriteCandidates candidates) fun next => next ⊆ gs := by
  unfold commitWriteCandidates
  split
  · exact .pure (by simp)
  refine (holds_frames (contextError_holds hM)).seq fun _ => Keeps.get.seq fun s => ?_
  split
  · refine (x.resize_frames hM _).seq fun err => ?_
    cases err with
    | none => exact holds_frames (x.writeCandidates_holds hM h)
    | some e =>
      dsimp only
      split
      · have hfail := holds_frames (x.failCandidates_holds hM (resourceExhaustedError e) _ h)
        exact hfail.seq fun _ => .pure (by simp)
      · exact .fail trivial
  · exact holds_frames (x.writeCandidates_holds hM h)

/-! ## One chunk -/

variable {stored : Storage.ReadResult} {results : Results}

omit hM in
/-- The candidate an evaluation returns is for the group's own record. -/
theorem prepareWriteGroup_address (ctx : Nat → Bool) (g : WriteGroup)
    (h : (prepareWriteGroup ctx g.operations stored results).1 = some w) :
    w.address = g.address := by
  obtain ⟨⟨op, hop, ha⟩, -⟩ := foldOperations_candidate_shape ctx h
  exact ha.trans (g.sameAddress op hop)

omit hM in
theorem prepareRuns_address (ctx : Nat → Bool) {address : Address}
    (runs : List (Nat × List ParsedWrite))
    (hruns : ∀ op ∈ runOperations runs, op.address = address) (st : BatchedState)
    (hst : ∀ w, st.candidate = some w → w.address = address)
    (h : (prepareRuns ctx runs st).2.candidate = some w) : w.address = address := by
  induction runs generalizing st with
  | nil => exact hst w h
  | cons run runs ih =>
    obtain ⟨owner, part⟩ := run
    simp only [runOperations, flatMap_cons, mem_append] at hruns
    refine ih (fun op hop => hruns op (.inr hop)) (prepareRun ctx st owner part).2 ?_ h
    rcases prepareRun_cases ctx st owner part with ⟨-, hstep⟩ | ⟨-, hstep⟩
    · rw [hstep.candidate]
      cases hpart : (foldOperations ctx part ⟨none, st.current, st.results⟩).candidate with
      | none => exact hst
      | some p =>
        obtain ⟨⟨op, hop, ha⟩, -⟩ := foldOperations_candidate_shape ctx hpart
        rintro w ⟨⟩
        cases hc : st.candidate with
        | none => exact ha.trans (hruns op (.inl hop))
        | some first => exact hst first hc
    · rw [hstep.candidate]
      exact hst

omit hM in
theorem prepareBatchedWriteGroup_address (ctx : Nat → Bool) (owner : Nat → Nat) (g : WriteGroup)
    {inputs outputs : Nat → BudgetCell}
    (h : (prepareBatchedWriteGroup ctx owner g.operations stored results inputs outputs).candidate
      = some w) : w.address = g.address := by
  refine prepareRuns_address ctx _ ?_ _ (by simp) h
  rw [runOperations_ownerRuns]
  exact g.sameAddress

/-- The evaluation of a group proposes a write to the record of that group. -/
theorem prepareCandidate_holds (hg : g ∈ gs) (stored : Storage.ReadResult) :
    Holds M gs (x.prepareCandidate g stored) fun prepared =>
      ∀ w, prepared = some w → w.address = g.address := by
  refine (ask_holds hM (c := .evaluate g.address) ⟨g, hg, rfl⟩).seq fun ctx => ?_
  intro s w
  dsimp only
  split
  · refine ⟨rfl, ⟨⟨fun i hi => ?_, fun i => ?_⟩, rfl, rfl⟩,
      fun w hw => prepareWriteGroup_address ctx g hw⟩
    · exact foldOperations_results_of_notMem ctx _ (hi g hg)
    · exact foldOperations_operationIndex ctx _ _ i
  · refine ⟨rfl, ⟨⟨fun i hi => ?_, fun i => ?_⟩, rfl, rfl⟩,
      fun w hw => prepareBatchedWriteGroup_address ctx _ g hw⟩
    · refine prepareRuns_results_of_notMem ctx _ ?_
      rw [runOperations_ownerRuns]
      exact hi g hg
    · exact prepareRuns_operationIndex ctx _ _ i

theorem rejectCandidate_holds (hg : g ∈ gs) (op : Storage.WriteOperation) (err : GoError) :
    Holds M gs (x.rejectCandidate g op err) fun _ => True :=
  (x.shrinkLease_holds hM _).seq fun _ =>
    (x.settleGroup_holds hM hg _).seq fun _ => .pure trivial

theorem admitCandidate_holds (hg : g ∈ gs) (op : Storage.WriteOperation) :
    Holds M gs (x.admitCandidate g op) fun _ => True := by
  refine (x.growLease_holds hM _).seq fun growthErr => ?_
  cases growthErr with
  | some e => exact (x.settleGroup_holds hM hg _).seq fun _ => .pure trivial
  | none =>
    refine (x.reserveReturns_holds hM _ _).bind fun returnErr _ => ?_
    cases returnErr with
    | some e => exact x.rejectCandidate_holds hM hg op e
    | none =>
      dsimp only
      split
      · exact .pure trivial
      refine Keeps.get.seq fun s => ?_
      split
      · exact x.rejectCandidate_holds hM hg op _
      · exact (setAttempt_holds (by intro; rfl)).seq fun _ => .pure trivial

structure ChunkOf (gs : List WriteGroup) (c : Chunk) : Prop where
  conflicts : c.conflicts ⊆ gs
  deferred : c.deferred ⊆ gs
  candidates : CandidatesOf gs c.candidates

/-- A full chunk is committed first, so adding to it is work on its groups. -/
theorem addCandidate_frames (hg : g ∈ gs) {op : Storage.WriteOperation}
    (hop : op.address = g.address) {c : Chunk} (hc : ChunkOf gs c) :
    Frames M gs (x.addCandidate g op c) (ChunkOf gs) := by
  have hone : CandidatesOf gs [(g, op)] := by
    intro d hd
    obtain rfl := mem_singleton.mp hd
    exact ⟨hg, hop⟩
  unfold addCandidate
  split
  · refine (setAttempt_frames _).seq fun _ => ?_
    refine (x.commitWriteCandidates_frames hM hc.candidates).bind fun conflicts hconf => ?_
    refine (setAttempt_frames _).seq fun _ => ?_
    refine (holds_frames (x.shrinkLease_holds hM _)).seq fun _ => .pure ?_
    refine ⟨append_subset.mpr ⟨hc.conflicts, hconf⟩, hc.deferred, hone⟩
  · refine .pure ⟨hc.conflicts, hc.deferred, forall_mem_append.mpr ⟨hc.candidates, hone⟩⟩

theorem applySnapshot_frames (hg : g ∈ gs) (stored : Storage.ReadResult) {c : Chunk}
    (hc : ChunkOf gs c) : Frames M gs (x.applySnapshot g stored c) (ChunkOf gs) := by
  unfold applySnapshot
  split
  · refine .pure ⟨hc.conflicts, append_subset.mpr ⟨hc.deferred, cons_subset.mpr ⟨hg, nil_subset _⟩⟩,
      hc.candidates⟩
  · refine (holds_frames (x.prepareCandidate_holds hM hg stored)).bind fun prepared haddr => ?_
    cases prepared with
    | none => exact (holds_frames (x.complete_holds hM hg)).seq fun _ => .pure hc
    | some op =>
      refine (holds_frames (x.admitCandidate_holds hM hg op)).seq fun admitted => ?_
      split
      · exact x.addCandidate_frames hM hg (haddr op rfl) hc
      · exact .pure hc

/-- Going through the snapshots keeps the chunk within the groups. -/
theorem applySnapshots_frames :
    ∀ (snapshots : List (WriteGroup × Storage.ReadResult)) (c : Chunk),
      (∀ p ∈ snapshots, p.1 ∈ gs) → ChunkOf gs c →
        Frames M gs (x.applySnapshots snapshots c) (ChunkOf gs)
  | [], _, _, hc => .pure hc
  | (_, stored) :: rest, _, h, hc =>
    (x.applySnapshot_frames hM (h _ mem_cons_self) stored hc).bind fun c hc =>
      applySnapshots_frames rest c (forall_mem_cons.mp h).2 hc

theorem applyWriteSnapshots_frames {snapshots} (h : ∀ p ∈ snapshots, p.1 ∈ gs) :
    Frames M gs (x.applyWriteSnapshots snapshots) fun outcome =>
      outcome.1 ⊆ gs ∧ outcome.2 ⊆ gs := by
  refine (x.applySnapshots_frames hM snapshots _ h
    ⟨by simp, by simp, by simp [CandidatesOf]⟩).bind fun c hc => ?_
  refine (setAttempt_frames _).seq fun _ => ?_
  refine (x.commitWriteCandidates_frames hM hc.candidates).bind fun conflicts hconf => ?_
  refine (setAttempt_frames _).seq fun _ => .pure ⟨append_subset.mpr ⟨hc.conflicts, hconf⟩,
    hc.deferred⟩

/-! ## Attempts and waves -/

theorem readWriteSnapshots_holds (hgs : groups ⊆ gs) :
    Holds M gs (x.readWriteSnapshots groups) fun _ => True := by
  refine Keeps.get.seq fun s => ?_
  refine (ask_holds hM (c := .read _ _) fun op hop => ?_).seq fun response => ?_
  · obtain ⟨g, hg, rfl⟩ := mem_map.mp hop
    exact ⟨g, hgs hg, rfl⟩
  · refine (setAttempt_holds (by intro; rfl)).seq fun _ => ?_
    split
    · exact .fail (by simp [NotExhausted, GoError.statusCode])
    split
    · exact .fail (by simp [NotExhausted, GoError.statusCode])
    · exact .pure trivial

theorem executeChunk_frames {batch : List WriteGroup} (hgs : batch ⊆ gs) :
    Frames M gs (x.executeChunk batch) fun outcome =>
      outcome.1 ⊆ gs ∧ outcome.2 ⊆ gs := by
  refine (holds_frames (x.readWriteSnapshots_holds hM hgs)).seq fun snapshots => ?_
  refine (setAttempt_frames _).seq fun _ => ?_
  exact x.applyWriteSnapshots_frames hM fun p hp =>
    hgs (of_mem_zip (a := p.1) (b := p.2) hp).1

theorem failGroups_holds {f : WriteResult → WriteResult}
    (hf : ∀ r, (f r).operationIndex = r.operationIndex) :
    ∀ groups : List WriteGroup, groups ⊆ gs →
      Holds M gs (x.failGroups f groups) fun _ => True
  | [], _ => .pure trivial
  | _ :: groups, h =>
    (setResults_holds (h mem_cons_self) fun _ => hf).seq fun _ =>
      (x.complete_holds hM (h mem_cons_self)).seq fun _ =>
        failGroups_holds hf groups (cons_subset.mp h).2

variable (hd : M.mayDiverge)

include hd

/-- Each turn of the loop works on groups of the attempt: by induction on the
fuel, with what is pending and what is left over inside `gs`. -/
theorem attemptLoop_frames :
    ∀ (fuel : Nat) (pending : List WriteGroup) (limit : Nat) (next : List WriteGroup),
      pending ⊆ gs → next ⊆ gs →
        Frames M gs (x.attemptLoop fuel pending limit next) fun next => next ⊆ gs
  | 0, [], _, _, _, hnext => .pure hnext
  | _ + 1, [], _, _, _, hnext => .pure hnext
  | 0, _ :: _, _, _, _, _ => .diverge hd
  | fuel + 1, g :: pending, limit, next, hpending, hnext => by
    unfold attemptLoop
    refine (holds_frames (contextError_holds hM)).seq fun _ =>
      (x.resize_frames hM _).seq fun err => ?_
    cases err with
    | some e =>
      have hfail := x.failGroups_holds hM (f := exhaustedResult e) (fun _ => rfl) _ hpending
      exact (holds_frames hfail).seq fun _ => .pure hnext
    | none =>
      have htake := Subset.trans (take_subset (min limit (pending.length + 1)) _) hpending
      refine (x.executeChunk_frames hM htake).bind fun outcome hout => ?_
      have hnext' := append_subset.mpr ⟨hnext, hout.1⟩
      have hdrop := Subset.trans (drop_subset (min limit (pending.length + 1)) _) hpending
      split
      · exact attemptLoop_frames fuel _ _ _ hdrop hnext'
      · exact attemptLoop_frames fuel _ _ _ (append_subset.mpr ⟨hout.2, hdrop⟩) hnext'

theorem executeWriteAttempt_frames (fuel : Nat) (hgs : groups ⊆ gs) :
    Frames M gs (x.executeWriteAttempt fuel groups) fun next => next ⊆ gs :=
  (setAttempt_frames _).seq fun _ => x.attemptLoop_frames hM hd fuel _ _ _ hgs (by simp)

theorem attempts_frames (fuel : Nat) :
    ∀ (n : Nat) (groups : List WriteGroup), groups ⊆ gs →
      Frames M gs (x.attempts fuel n groups) fun next => next ⊆ gs
  | 0, _, hgs => .pure hgs
  | _ + 1, [], _ => .pure (by simp)
  | n + 1, _ :: _, hgs =>
    (holds_frames (contextError_holds hM)).seq fun _ =>
      (x.executeWriteAttempt_frames hM hd fuel hgs).bind fun next hnext =>
        attempts_frames fuel n next hnext

theorem executeConditionalWrites_frames (fuel : Nat) (hgs : groups ⊆ gs) :
    Frames M gs (x.executeConditionalWrites fuel groups) fun _ => True :=
  (x.attempts_frames hM hd fuel _ _ hgs).bind fun pending hpending =>
    holds_frames (x.failGroups_holds hM (f := conflictResult) (fun _ => rfl) pending hpending)

/-- A wave is work on the groups it was given. -/
theorem executeWriteWave_frames (fuel : Nat) (hgs : groups ⊆ gs) :
    Frames M gs (x.executeWriteWave fuel groups) fun _ => True :=
  (holds_frames (x.executePuts_holds hM (Subset.trans (filter_subset_self _) hgs))).seq fun _ =>
    x.executeConditionalWrites_frames hM hd fuel (Subset.trans (filter_subset_self _) hgs)

end WriteExecution

end Sink
