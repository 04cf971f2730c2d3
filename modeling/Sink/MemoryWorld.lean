import Sink.WriteExec

/-!
# An undisturbed memory store

The environment in which nothing interferes with an execution: the store is
the in-memory one, no other writer uses it, the context is never done and
no memory pool refuses. It is a handler, so an execution in it computes.
The world also counts the storage operations.
-/

namespace Sink

open Interact Interact.Exec List Function Memory

structure MemoryWorld where
  store : Store
  reads : Nat
  writes : Nat

/-- An admission pool nobody else uses. -/
def idlePool : AdmissionPool := ⟨0, 0, 0, 0, 0, 0, 0, 0, []⟩

/-- How the environment answers. -/
def MemoryWorld.handle (w : MemoryWorld) : (c : Call) → Reply c × MemoryWorld
  | .contextErr => (none, w)
  | .evaluate _ => (fun _ => false, w)
  | .read ops cells =>
    let r := w.store.read ops ⟨cells, []⟩
    ((.ok r.1, r.2.cells), { w with reads := w.reads + ops.length })
  | .write ops _ =>
    let r := w.store.write ops
    (.ok r.1, { w with store := r.2, writes := w.writes + ops.length })
  | .delete addresses _ =>
    let r := w.store.delete addresses
    (.ok r.1, { w with store := r.2 })
  | .lockPool => (idlePool, w)
  | .unlockPool _ => ((), w)
  | .leaseBytes => (0, w)
  | .leaseGrow _ => (none, w)
  | .leaseShrink _ => ((), w)
  | .output _ _ => (none, w)
  | .releaseOutput _ _ => ((), w)
  | .complete _ => ((), w)
  | .admitRequest _ => (none, w)
  | .publishGrow _ => (none, w)
  | .publish mutations => (.ok (mutations.map fun _ => .accepted), w)

/-- The state an execution of a request without returned documents starts in. -/
def ExecState.initial (x : WriteExecution) : ExecState where
  results := .new
  returns := none
  reservation := .granted x.estimate.bytes
  attempt := x.freshAttempt

/-- Run an execution in the undisturbed environment. -/
abbrev compute {α : Type} (y : ServerM α) (s : ExecState) (w : MemoryWorld) :
    Option (Fallible α × ExecState × MemoryWorld) :=
  Exec.run MemoryWorld.handle y s w

/-- An execution for one ordinary caller whose estimate is consistent. -/
structure Ordinary (x : WriteExecution) : Prop where
  budgets : x.budgets = none
  attempts : 1 ≤ x.maxMergeAttempts
  working : 0 ≤ x.estimate.workingBytes ∧ x.estimate.workingBytes ≤ x.estimate.bytes

def Fits (x : WriteExecution) (d : Document) : Prop :=
  d.size + readOverhead ≤ (BudgetCell.new x.maxReadBytes).maximum

instance (x : WriteExecution) (d : Document) : Decidable (Fits x d) :=
  inferInstanceAs (Decidable (_ ≤ _))

/-- What an undisturbed read of the record returns. -/
def Memory.Store.snapshot (s : Memory.Store) (address : Address) : Storage.ReadResult :=
  match s.records address with
  | none => ⟨.notFound, .empty, [], none⟩
  | some record => ⟨.found, record.document, record.revision, none⟩

/-! ## Computing the parts of an execution -/

theorem compute_ask (c : Call) (s : ExecState) (w : MemoryWorld) :
    compute (ask c) s w = some (.ok (w.handle c).1, s, (w.handle c).2) := rfl

theorem compute_setAttempt (f : WriteAttempt → WriteAttempt) (s : ExecState) (w : MemoryWorld) :
    compute (setAttempt f) s w = some (.ok (), { s with attempt := f s.attempt }, w) := rfl

theorem compute_contextError (s : ExecState) (w : MemoryWorld) :
    compute contextError s w = some (.ok (), s, w) := rfl

section Compute

variable (x : WriteExecution) {s : ExecState} (w : MemoryWorld)

theorem compute_growLease (bytes : Int) (s : ExecState) :
    compute (x.growLease bytes) s w = some (.ok none, s, w) := by
  unfold WriteExecution.growLease
  split <;> rfl

theorem compute_reserveReturns (hs : s.returns = none) (document : Document) :
    ∀ ops : List ParsedWrite, compute (x.reserveReturns document ops) s w = some (.ok none, s, w)
  | [] => rfl
  | op :: ops => by
    have hone : compute (x.reserveReturn document op) s w = some (.ok none, s, w) := by
      unfold WriteExecution.reserveReturn
      rw [compute, run_bind (run_get s w), hs]
      rfl
    unfold WriteExecution.reserveReturns
    rw [compute, run_bind hone]
    exact compute_reserveReturns hs document ops

theorem compute_settleReturns (hs : s.returns = none) :
    ∀ ops : List ParsedWrite, compute (x.settleReturns ops) s w = some (.ok (), s, w)
  | [] => rfl
  | op :: ops => by
    have hone : compute (x.settleReturn op) s w = some (.ok (), s, w) := by
      unfold WriteExecution.settleReturn
      rw [compute, run_bind (run_get s w), hs]
      rfl
    unfold WriteExecution.settleReturns
    rw [compute, run_bind hone]
    exact compute_settleReturns hs ops

theorem compute_complete (hs : s.returns = none) (ops : List ParsedWrite) :
    compute (x.complete ops) s w = some (.ok (), s, w) := by
  unfold WriteExecution.complete
  rw [compute, run_bind (compute_settleReturns x w hs ops)]
  rfl

theorem compute_settleStored (hs : s.returns = none) (ops : List ParsedWrite)
    (stored : Storage.WriteResult) (document : Document) :
    let results := attachWriteDocument ops (applyWriteGroupResult ops s.results stored) document
    compute (x.settleStored ops stored document) s w = some (.ok (), { s with results }, w) := by
  intro results
  exact compute_complete x w (s := { s with results }) hs ops

/-- A resize that does not grow a legacy reservation succeeds. -/
theorem compute_resize {bytes : Int} (hgranted : s.reservation = .granted x.estimate.bytes)
    (hbytes : x.managed = false → 0 ≤ bytes ∧ bytes ≤ x.estimate.bytes) :
    ∃ reservation, compute (x.resize bytes) s w = some (.ok none, { s with reservation }, w) ∧
      (bytes = x.estimate.bytes → reservation = s.reservation) := by
  unfold WriteExecution.resize
  by_cases hm : x.managed = true
  · refine ⟨s.reservation, ?_, fun _ => rfl⟩
    rw [if_pos hm, compute, run_bind (compute_ask .leaseBytes s w)]
    by_cases hb : bytes < (w.handle .leaseBytes).1
    · rw [if_pos hb]
      rfl
    · rw [if_neg hb]
      rfl
  · obtain ⟨h0, hle⟩ := hbytes (by simpa using hm)
    have hshrink : (s.reservation.resize idlePool bytes).1 = none ∧
        (s.reservation.resize idlePool bytes).2.1 = { s.reservation with bytes } := by
      rw [hgranted]
      exact AdmissionReservation.resize_shrink rfl h0 hle (Int.le_refl _)
    refine ⟨{ s.reservation with bytes }, ?_, fun h => by rw [hgranted, h]; rfl⟩
    rw [if_neg hm, compute, run_bind (compute_ask .lockPool s w)]
    simp only [MemoryWorld.handle]
    rw [run_bind (run_get s w), run_bind (run_modify _ s w)]
    simp only [hshrink.1, hshrink.2]
    rfl

/-- What a commit keeps reserved never exceeds the estimate. -/
theorem retainedBytes_le {x : WriteExecution} (hx : Ordinary x) (hm : x.managed = false)
    {snapshot candidate : Int} (hs : 0 ≤ snapshot) (hc : 0 ≤ candidate) :
    0 ≤ x.retainedBytes snapshot candidate ∧
      x.retainedBytes snapshot candidate ≤ x.estimate.bytes := by
  obtain ⟨h0, hle⟩ := hx.working
  unfold WriteExecution.retainedBytes
  rw [hm, if_neg (by simp)]
  omega

end Compute

/-! ## The direct path -/

section Direct

variable {x : WriteExecution} {s : ExecState}

/-- A direct group is one unconditional storage write. -/
theorem compute_executePuts (hs : s.returns = none) (w : MemoryWorld) {g : WriteGroup}
    {put : ParsedPut} (hput : g.lastPut? = some put) :
    let reply := w.store.writeOne ⟨g.address, put.document, put.precondition⟩
    let results := attachWriteDocument g.operations
      (applyWriteGroupResult g.operations s.results reply.1) put.document
    compute (x.executePuts [g]) s w = some (.ok (), { s with results },
      { w with store := reply.2, writes := w.writes + 1 }) := by
  intro reply results
  have hplan : compute (x.reservePuts [g]) s w =
      some (.ok [(g, ⟨g.address, put.document, put.precondition⟩)], s, w) := by
    unfold WriteExecution.reservePuts
    simp only [hput]
    rw [compute, run_bind (compute_reserveReturns x w hs _ _)]
    rfl
  have hwrite : compute (ask (.write [⟨g.address, put.document, put.precondition⟩]
      x.waitUntilVisible)) s w =
        some (.ok (.ok [reply.1]), s, { w with store := reply.2, writes := w.writes + 1 }) := rfl
  refine (run_bind hplan).trans ((run_bind hwrite).trans ?_)
  exact (run_bind (compute_settleStored x _ hs _ _ _)).trans rfl

theorem compute_executeConditionalWrites_nil (hx : Ordinary x) (fuel : Nat) (s : ExecState)
    (w : MemoryWorld) : compute (x.executeConditionalWrites fuel []) s w = some (.ok (), s, w) := by
  obtain ⟨n, hn⟩ : ∃ n, x.maxMergeAttempts = n + 1 := ⟨_, (Nat.sub_add_cancel hx.attempts).symm⟩
  unfold WriteExecution.executeConditionalWrites
  rw [hn]
  rfl

end Direct

/-! ## The conditional path -/

section Conditional

variable {x : WriteExecution} {s : ExecState}
variable {op : Storage.WriteOperation} {g : WriteGroup}

theorem BudgetCell.reserve_of_fits {d : Document} (h : Fits x d) :
    (BudgetCell.new x.maxReadBytes).reserve d.size =
      .ok ((BudgetCell.new x.maxReadBytes).charge d.size) := by
  refine if_neg ?_
  have hsize := d.size_nonneg
  have hsame : (BudgetCell.new x.maxReadBytes).remaining =
      (BudgetCell.new x.maxReadBytes).maximum := rfl
  unfold Fits at h
  unfold BudgetCell.refuses
  omega

theorem snapshotRead_eq (hx : Ordinary x) (g : WriteGroup) :
    x.snapshotRead g = ⟨g.address, if x.managed then .memory (.cell 0) else .cell 0⟩ := by
  have hshared : sharedSnapshotBudget (g.operations.map fun _ => 0) 1 = .cell 0 := by
    unfold sharedSnapshotBudget
    split
    · rename_i owner howner
      have hmem : owner ∈ g.operations.map fun _ => 0 := by rw [howner]; exact mem_cons_self
      obtain ⟨-, -, rfl⟩ := mem_map.mp hmem
      rfl
    · simp [g.nonempty]
  unfold WriteExecution.snapshotRead
  simp only [hx.budgets, callerCount, ownerOf, hshared]
  simp

theorem readOne_of_fits (store : Store) {address : Address} (cells : Nat → BudgetCell)
    (hcell : cells 0 = .new x.maxReadBytes)
    (hfits : ∀ record, store.records address = some record → Fits x record.document) :
    (store.readOne ⟨address, if x.managed then .memory (.cell 0) else .cell 0⟩ ⟨cells, []⟩).1 =
      store.snapshot address := by
  unfold Store.readOne Store.snapshot
  cases hrec : store.records address with
  | none => rfl
  | some record =>
    have hres := BudgetCell.reserve_of_fits (hfits record hrec)
    cases x.managed with
    | false =>
      simp only [Bool.false_eq_true, if_false, ReadBudget.reserve, ReserveState.reserveCell,
        hcell, hres]
    | true => simp only [if_true, ReadBudget.reserve, ReserveState.reserveCell, hcell, hres]

theorem compute_readWriteSnapshots (hx : Ordinary x) (w : MemoryWorld) (g : WriteGroup)
    (hcell : s.attempt.cells 0 = .new x.maxReadBytes)
    (hfits : ∀ record, w.store.records g.address = some record → Fits x record.document) :
    ∃ cells, compute (x.readWriteSnapshots [g]) s w =
      some (.ok [w.store.snapshot g.address], { s with attempt := { s.attempt with cells } },
        { w with reads := w.reads + 1 }) := by
  have hcells : (update s.attempt.cells 1 (.new x.maxReadBytes)) 0 = .new x.maxReadBytes := by
    rw [update_of_ne (by decide), hcell]
  have hone := readOne_of_fits w.store _ hcells hfits
  refine ⟨(w.store.readOne (x.snapshotRead g)
    ⟨update s.attempt.cells 1 (.new x.maxReadBytes), []⟩).2.cells, ?_⟩
  have hread : compute (ask (.read [x.snapshotRead g]
      (update s.attempt.cells 1 (.new x.maxReadBytes)))) s w =
      some (.ok (.ok [w.store.snapshot g.address], (w.store.readOne (x.snapshotRead g)
        ⟨update s.attempt.cells 1 (.new x.maxReadBytes), []⟩).2.cells), s,
        { w with reads := w.reads + 1 }) := by
    rw [← hone, snapshotRead_eq hx]
    rfl
  refine (run_bind (run_get s w)).trans ?_
  rw [hx.budgets]
  exact (run_bind hread).trans ((run_bind (compute_setAttempt _ s _)).trans rfl)

theorem compute_prepareCandidate (hx : Ordinary x) (w : MemoryWorld) (g : WriteGroup)
    (stored : Storage.ReadResult) (s : ExecState) :
    let prepared := prepareWriteGroup (fun _ => false) g.operations stored s.results
    compute (x.prepareCandidate g stored) s w =
      some (.ok prepared.1, { s with results := prepared.2 }, w) := by
  intro prepared
  refine (run_bind (compute_ask (.evaluate g.address) s w)).trans
    ((run_bind (run_get s w)).trans ?_)
  simp only [hx.budgets]
  exact (run_bind (run_modify _ s w)).trans rfl

theorem compute_admitCandidate (hx : Ordinary x) (w : MemoryWorld) (g : WriteGroup)
    (hs : s.returns = none) (hout : s.attempt.output = .new x.maxReadBytes)
    (hfits : Fits x op.document) :
    ∃ output, compute (x.admitCandidate g op) s w =
      some (.ok true, { s with attempt := { s.attempt with output } }, w) := by
  refine ⟨(BudgetCell.new x.maxReadBytes).charge op.document.size, ?_⟩
  refine (run_bind (compute_growLease x w _ s)).trans ?_
  refine (run_bind (compute_reserveReturns x w hs _ _)).trans ?_
  simp only [hx.budgets]
  refine (run_bind (run_get s w)).trans ?_
  simp only [hout, BudgetCell.reserve_of_fits hfits]
  exact (run_bind (compute_setAttempt _ _ _)).trans rfl

theorem compute_writeCandidates (x : WriteExecution) (w : MemoryWorld) (hs : s.returns = none)
    (hreply : (w.store.writeOne op).1.status ≠ .preconditionFailed) :
    let results := attachWriteDocument g.operations
      (applyWriteGroupResult g.operations s.results (w.store.writeOne op).1) op.document
    compute (x.writeCandidates [(g, op)]) s w = some (.ok [], { s with results },
      { w with store := (w.store.writeOne op).2, writes := w.writes + 1 }) := by
  intro results
  have hwrite : compute (ask (.write [op] x.waitUntilVisible)) s w =
      some (.ok (.ok [(w.store.writeOne op).1]), s,
        { w with store := (w.store.writeOne op).2, writes := w.writes + 1 }) := rfl
  refine (run_bind hwrite).trans ?_
  change compute (x.settleCandidates [((g, op), (w.store.writeOne op).1)]) _ _ = _
  unfold WriteExecution.settleCandidates
  rw [if_neg hreply]
  exact (run_bind (compute_settleStored x _ hs _ _ _)).trans rfl

/-- Commit the only candidate of a chunk; its precondition holds because no
other writer interferes. -/
theorem compute_commitWriteCandidates (hx : Ordinary x) (w : MemoryWorld) (hs : s.returns = none)
    (hgranted : s.reservation = .granted x.estimate.bytes)
    (hsnapshot : 0 ≤ s.attempt.snapshotBytes) (hpending : s.attempt.pendingCandidateBytes = 0)
    (hreply : (w.store.writeOne op).1.status ≠ .preconditionFailed) :
    let results := attachWriteDocument g.operations
      (applyWriteGroupResult g.operations s.results (w.store.writeOne op).1) op.document
    ∃ reservation, compute (x.commitWriteCandidates [(g, op)]) s w =
      some (.ok [], { s with results, reservation },
        { w with store := (w.store.writeOne op).2, writes := w.writes + 1 }) := by
  intro results
  by_cases hretain : (s.attempt.finalCommit || x.managed) = true
  · have hcandidate : 0 ≤ candidateBytes op + s.attempt.pendingCandidateBytes := by
      have := op.document.size_nonneg
      unfold candidateBytes
      omega
    obtain ⟨reservation, hresize, -⟩ := compute_resize x w hgranted
      (fun hm => retainedBytes_le hx hm hsnapshot hcandidate)
    refine ⟨reservation, ?_⟩
    refine (run_bind (compute_contextError s w)).trans ((run_bind (run_get s w)).trans ?_)
    rw [if_pos hretain]
    exact (run_bind hresize).trans
      (compute_writeCandidates x w (s := { s with reservation }) hs hreply)
  · refine ⟨s.reservation, ?_⟩
    refine (run_bind (compute_contextError s w)).trans ((run_bind (run_get s w)).trans ?_)
    rw [if_neg hretain]
    exact compute_writeCandidates x w hs hreply

def MemoryWorld.settle (w : MemoryWorld) (g : WriteGroup)
    (prepared : Option Storage.WriteOperation × Results) : Results × MemoryWorld :=
  match prepared with
  | (none, results) => (results, w)
  | (some op, results) =>
    let reply := w.store.writeOne op
    (attachWriteDocument g.operations (applyWriteGroupResult g.operations results reply.1)
      op.document, { w with store := reply.2, writes := w.writes + 1 })

/-- The snapshot can be evaluated, and every candidate it leads to fits and
commits. -/
structure Undisturbed (x : WriteExecution) (w : MemoryWorld) (stored : Storage.ReadResult)
    (prepared : Option Storage.WriteOperation × Results) : Prop where
  read : stored.err = none
  fits : ∀ op, prepared.1 = some op → Fits x op.document
  commits : ∀ op, prepared.1 = some op →
    (w.store.writeOne op).1.status ≠ .preconditionFailed

theorem compute_applyWriteSnapshots (hx : Ordinary x) (w : MemoryWorld)
    {stored : Storage.ReadResult} (hs : s.returns = none)
    (hgranted : s.reservation = .granted x.estimate.bytes)
    (hout : s.attempt.output = .new x.maxReadBytes) (hsnapshot : 0 ≤ s.attempt.snapshotBytes)
    (hpending : s.attempt.pendingCandidateBytes = 0)
    (hun : Undisturbed x w stored
      (prepareWriteGroup (fun _ => false) g.operations stored s.results)) :
    let settled := w.settle g (prepareWriteGroup (fun _ => false) g.operations stored s.results)
    ∃ attempt reservation, compute (x.applyWriteSnapshots [(g, stored)]) s w =
      some (.ok ([], []), { s with results := settled.1, attempt, reservation }, settled.2) := by
  have hdeferred : WriteExecution.isDeferred stored = false := by
    simp [WriteExecution.isDeferred, hun.read]
  have hprepare := compute_prepareCandidate hx w g stored s
  cases hp : prepareWriteGroup (fun _ => false) g.operations stored s.results with
  | mk candidate results =>
    rw [hp] at hun hprepare
    intro settled
    cases candidate with
    | none =>
      have hsnap : compute (x.applySnapshots [(g, stored)] ⟨[], [], [], 0⟩) s w =
          some (.ok ⟨[], [], [], 0⟩, { s with results }, w) := by
        unfold WriteExecution.applySnapshots WriteExecution.applySnapshot
        rw [hdeferred, if_neg (by simp)]
        refine (run_bind ((run_bind hprepare).trans ?_)).trans rfl
        exact (run_bind (compute_complete x w (s := { s with results }) hs _)).trans rfl
      exact ⟨_, _, (run_bind hsnap).trans rfl⟩
    | some op =>
      obtain ⟨output, hadmit⟩ := compute_admitCandidate hx w g (s := { s with results })
        hs hout (hun.fits op rfl)
      have hsnap : compute (x.applySnapshots [(g, stored)] ⟨[], [], [], 0⟩) s w =
          some (.ok ⟨[], [], [(g, op)], candidateBytes op⟩,
            { s with results, attempt := { s.attempt with output } }, w) := by
        unfold WriteExecution.applySnapshots WriteExecution.applySnapshot
        rw [hdeferred, if_neg (by simp)]
        refine (run_bind ((run_bind hprepare).trans ((run_bind hadmit).trans ?_))).trans rfl
        unfold WriteExecution.addCandidate WriteExecution.overflowsChunk
        rw [if_pos rfl, if_neg (by simp)]
        simp only [nil_append, Int.zero_add]
        rfl
      obtain ⟨reservation, hcommit⟩ := compute_commitWriteCandidates hx w (g := g)
        (s := { s with
          results
          attempt := { s.attempt with output, finalCommit := true } })
        hs hgranted hsnapshot hpending (hun.commits op rfl)
      refine ⟨{ s.attempt with output, finalCommit := false }, reservation, ?_⟩
      refine (run_bind hsnap).trans ?_
      exact (run_bind (compute_setAttempt (fun a => { a with finalCommit := true })
        { s with results, attempt := { s.attempt with output } } w)).trans
        ((run_bind hcommit).trans rfl)

theorem snapshot_size_nonneg (stored : Storage.ReadResult) :
    0 ≤ ([stored].map fun r => r.document.size + 128).sum := by
  have := stored.document.size_nonneg
  simp only [map_cons, map_nil, sum_cons, sum_nil]
  omega

theorem compute_executeConditionalWrites (hx : Ordinary x) (fuel : Nat) (w : MemoryWorld)
    (hs : s.returns = none) (hgranted : s.reservation = .granted x.estimate.bytes)
    (hfits : ∀ record, w.store.records g.address = some record → Fits x record.document)
    (hun : Undisturbed x w (w.store.snapshot g.address)
      (prepareWriteGroup (fun _ => false) g.operations (w.store.snapshot g.address) s.results)) :
    let settled := MemoryWorld.settle { w with reads := w.reads + 1 } g
      (prepareWriteGroup (fun _ => false) g.operations (w.store.snapshot g.address) s.results)
    ∃ attempt reservation, compute (x.executeConditionalWrites (fuel + 1) [g]) s w =
      some (.ok (), { s with results := settled.1, attempt, reservation }, settled.2) := by
  intro settled
  obtain ⟨n, hn⟩ : ∃ n, x.maxMergeAttempts = n + 1 := ⟨_, (Nat.sub_add_cancel hx.attempts).symm⟩
  have hbytes : 0 ≤ x.estimate.bytes := Int.le_trans hx.working.1 hx.working.2
  have hcell : x.freshAttempt.cells 0 = .new x.maxReadBytes := by
    simp only [WriteExecution.freshAttempt, freshBudgets, trackerOf, hx.budgets, freshBudget]
  obtain ⟨reservation₀, hresize, hsame⟩ := compute_resize x w
    (s := { s with attempt := x.freshAttempt }) hgranted (fun _ => ⟨hbytes, Int.le_refl _⟩)
  obtain rfl : reservation₀ = s.reservation := hsame rfl
  obtain ⟨cells, hread⟩ := compute_readWriteSnapshots hx w g
    (s := { s with attempt := x.freshAttempt }) hcell hfits
  have hattempt : ∃ attempt reservation,
      compute (x.executeWriteAttempt (fuel + 1) [g]) s w =
        some (.ok [], { s with results := settled.1, attempt, reservation }, settled.2) := by
    obtain ⟨attempt, reservation, happly⟩ := compute_applyWriteSnapshots hx
      { w with reads := w.reads + 1 }
      (s := { s with attempt := { x.freshAttempt with
        cells
        snapshotBytes :=
          ([w.store.snapshot g.address].map fun r => r.document.size + 128).sum } })
      hs hgranted rfl (snapshot_size_nonneg _) rfl ⟨hun.read, hun.fits, hun.commits⟩
    refine ⟨attempt, reservation, ?_⟩
    have hchunk : compute (x.executeChunk [g]) { s with attempt := x.freshAttempt } w =
        some (.ok ([], []), { s with results := settled.1, attempt, reservation }, settled.2) :=
      (run_bind hread).trans happly
    refine (run_bind (compute_setAttempt _ s w)).trans ?_
    refine (run_bind (compute_contextError _ w)).trans ?_
    refine (run_bind hresize).trans ((run_bind hchunk).trans ?_)
    cases fuel <;> rfl
  obtain ⟨attempt, reservation, hattempt⟩ := hattempt
  refine ⟨attempt, reservation, ?_⟩
  have hattempts : compute (x.attempts (fuel + 1) x.maxMergeAttempts [g]) s w =
      some (.ok [], { s with results := settled.1, attempt, reservation }, settled.2) := by
    rw [hn]
    refine (run_bind (compute_contextError s w)).trans ((run_bind hattempt).trans ?_)
    cases n <;> rfl
  exact (run_bind hattempts).trans rfl

end Conditional

/-! ## One group without returned documents -/

section OneGroup

variable {x : WriteExecution} {s s' : ExecState} {w w' : MemoryWorld} {g : WriteGroup}

theorem WriteGroup.split_of_no_returns (hret : g.hasReturns = false) : g.split = (g, none) := by
  unfold WriteGroup.split
  split
  · rfl
  · rfl
  · rw [hret, if_neg (by simp)]

variable {fuel : Nat}

theorem compute_executeWriteGroups (hret : g.hasReturns = false)
    (hwave : compute (x.executeWriteWave fuel [g]) s w = some (.ok (), s', w')) :
    compute (x.executeWriteGroups fuel [g]) s w = some (.ok (), s', w') := by
  obtain ⟨n, hn⟩ : ∃ n, WriteExecution.waveRounds [g] = n + 1 := by
    refine ⟨g.operations.length - 1, ?_⟩
    have := length_pos_iff.mpr g.nonempty
    simp only [WriteExecution.waveRounds, map_cons, map_nil, sum_cons, sum_nil]
    omega
  unfold WriteExecution.executeWriteGroups
  rw [hn]
  unfold WriteExecution.waves
  simp only [map_cons, map_nil, filterMap_cons, filterMap_nil, WriteGroup.split_of_no_returns hret]
  refine (run_bind hwave).trans ?_
  cases n <;> rfl

theorem compute_executeWriteWave_direct (hx : Ordinary x) (hd : g.directPut = true)
    (hputs : compute (x.executePuts [g]) s w = some (.ok (), s', w')) :
    compute (x.executeWriteWave fuel [g]) s w = some (.ok (), s', w') := by
  unfold WriteExecution.executeWriteWave
  simp only [filter_cons, filter_nil, hd, if_true, Bool.not_true, Bool.false_eq_true, if_false]
  exact (run_bind hputs).trans (compute_executeConditionalWrites_nil hx fuel s' w')

theorem compute_executeWriteWave_conditional (hd : g.directPut = false)
    (hwrites : compute (x.executeConditionalWrites fuel [g]) s w = some (.ok (), s', w')) :
    compute (x.executeWriteWave fuel [g]) s w = some (.ok (), s', w') := by
  unfold WriteExecution.executeWriteWave
  simp only [filter_cons, filter_nil, hd, if_true, Bool.not_false, Bool.false_eq_true, if_false]
  have hputs : compute (x.executePuts []) s w = some (.ok (), s, w) := rfl
  exact (run_bind hputs).trans hwrites

end OneGroup

end Sink
