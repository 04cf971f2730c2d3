import Sink.Calls

/-!
# Executing write groups

`write.go` from `executeWriteGroups` down, with `request_budgets.go`,
`write_return.go` and `write_memory.go`. Direct groups are written without
a snapshot. All other groups go through attempts: read one snapshot per
group, evaluate, commit with a precondition, and retry the groups whose
precondition failed. One attempt works in chunks when several callers share
the execution, because snapshots of independent RPCs share one bounded
working set.

The loop of one attempt is bounded by fuel: a storage that defers every
record of a chunk forever would keep the source in that loop too.
-/

namespace Sink

open Interact Function

/-! ## Budgets of the original callers -/

/-- `forwarding.Kind`. -/
inductive BudgetKind where
  | snapshots
  | inputs
  | outputs
  | returns
deriving Repr, DecidableEq

/-- The byte limits granted to a forwarded request. -/
structure Tracker where
  limits : BudgetKind → Int

variable (tracker : Option Tracker) (kind : BudgetKind) (maximum : Int)

/-- `Tracker.Fresh`: without a tracker, an ordinary budget. -/
def freshBudget : BudgetCell :=
  match tracker with
  | none => .new maximum
  | some t => .newTracked (min maximum (t.limits kind))

def trackerLimit : Int :=
  match tracker with
  | none => maximum
  | some t => min maximum (t.limits kind)

/-- Original RPC ownership of coalesced operations: `owners` is by operation
index, trackers and memory scopes are by caller. -/
structure RequestBudgets where
  owners : List Nat
  count : Nat
  trackers : List (Option Tracker)
  scopes : List Bool

variable (budgets : Option RequestBudgets)

/-- `callerCount`; without budgets the request is one ordinary RPC. -/
def callerCount : Nat :=
  match budgets with
  | none => 1
  | some b => b.count

/-- The RPC an operation came from. -/
def ownerOf (index : Nat) : Nat :=
  match budgets with
  | none => 0
  | some b => b.owners.getD index 0

def trackerOf (owner : Nat) : Option Tracker :=
  match budgets with
  | none => none
  | some b => (b.trackers.getD owner none)

/-- Whether the caller's response memory is charged to a scope. -/
def hasScope (owner : Nat) : Bool :=
  match budgets with
  | none => false
  | some b => b.scopes.getD owner false

def freshBudgets (kind : BudgetKind) (maximum : Int) :
    Nat → BudgetCell :=
  fun owner => freshBudget (trackerOf budgets owner) kind maximum

def sharedSnapshotBudget (owners : List Nat) (count : Nat) : ReadBudget :=
  match owners with
  | [owner] => .cell owner
  | owners =>
    if count = 1 ∧ owners ≠ [] then .cell 0
    else
      match owners.eraseDups with
      | [owner] => .cell owner
      | ids => .shared ids

/-! ## Execution state -/

/-- `writeReturns`: per caller what is left for returned documents, per
operation what is reserved. -/
structure WriteReturns where
  remaining : Nat → Int
  maximum : Nat → Int
  sizes : Nat → Int

structure WriteExecutionEstimate where
  bytes : Int
  workingBytes : Int
deriving Repr, DecidableEq

/-- `writeAttempt`. The cells are the snapshot budgets by caller; the cell
`callerCount` is the working set of the current chunk. -/
structure WriteAttempt where
  cells : Nat → BudgetCell
  inputs : Nat → BudgetCell
  outputs : Nat → BudgetCell
  output : BudgetCell
  snapshotBytes : Int
  pendingCandidateBytes : Int
  finalCommit : Bool

/-- The memory an execution mutates. -/
structure ExecState where
  results : Results
  returns : Option WriteReturns
  reservation : AdmissionReservation
  attempt : WriteAttempt

/-- The fixed parameters of one execution: server limits and options. -/
structure WriteExecution where
  maxReadBytes : Int
  maxMergeAttempts : Nat
  budgets : Option RequestBudgets
  waitUntilVisible : Bool
  managed : Bool
  estimate : WriteExecutionEstimate

abbrev ServerM := Exec Call Reply ExecState GoError

abbrev ask (c : Call) : ServerM (Reply c) := Exec.call c

abbrev Candidate := WriteGroup × Storage.WriteOperation

/-- `len(candidate.operation.Document.Payload) + 128`. -/
def candidateBytes (op : Storage.WriteOperation) : Int := op.document.size + 128

def contextError : ServerM Unit := do
  let err : Option ContextErr ← ask .contextErr
  match err with
  | none => pure ()
  | some e => Exec.fail e.error

def setResults (f : Results → Results) : ServerM Unit :=
  Exec.modify fun s => { s with results := f s.results }

def setAttempt (f : WriteAttempt → WriteAttempt) : ServerM Unit :=
  Exec.modify fun s => { s with attempt := f s.attempt }

def setReturns (r : WriteReturns) : ServerM Unit :=
  Exec.modify fun s => { s with returns := some r }

section Rules

variable {W : Type} {M : World Call Reply W} (Q : Fallible Unit → ExecState → W → Prop)
  (s : ExecState) (w : W)

@[simp] theorem wp_setResults (f : Results → Results) :
    Exec.wp M Q (setResults f) s w ↔ Q (.ok ()) { s with results := f s.results } w := Iff.rfl

@[simp] theorem wp_setAttempt (f : WriteAttempt → WriteAttempt) :
    Exec.wp M Q (setAttempt f) s w ↔ Q (.ok ()) { s with attempt := f s.attempt } w := Iff.rfl

theorem wp_ask {step obligation}
    (c : Call) {Q : Fallible (Reply c) → ExecState → W → Prop} {s : ExecState} {w : W}
    (hc : obligation w c) (hQ : ∀ r, Q (.ok r) s (step w c r)) :
    Exec.wp (observer step obligation) Q (ask c) s w :=
  (Exec.wp_call_observer c Q s w).mpr ⟨hc, hQ⟩

end Rules

namespace WriteExecution

variable (x : WriteExecution)

/-! ## Memory -/

def shrinkLease (bytes : Int) : ServerM Unit :=
  if x.managed then ask (.leaseShrink bytes) else pure ()

/-- `capacity.Grow`; without a lease it is a no-op. -/
def growLease (bytes : Int) : ServerM (Option GoError) :=
  if x.managed then ask (.leaseGrow bytes) else pure none

/-- `admissionReservation.resize`. -/
def resize (bytes : Int) : ServerM (Option GoError) :=
  if x.managed then do
    let current : Int ← ask .leaseBytes
    if bytes < current then do
      let _ : Unit ← ask (.leaseShrink (current - bytes))
      pure none
    else ask (.leaseGrow (bytes - current))
  else do
    let pool : AdmissionPool ← ask .lockPool
    let s ← Exec.get
    let r := s.reservation.resize pool bytes
    Exec.modify fun s => { s with reservation := r.2.1 }
    let _ : Unit ← ask (.unlockPool r.2.2)
    pure r.1

/-- What `retain` keeps reserved during a storage call. -/
def retainedBytes (snapshotBytes candidateBytes : Int) : Int :=
  if x.managed then 2 * snapshotBytes + 3 * candidateBytes
  else x.estimate.bytes - x.estimate.workingBytes +
    min x.estimate.workingBytes (2 * snapshotBytes + 3 * candidateBytes)

/-- `writeMemoryReservation.retain`. -/
def retain (snapshotBytes candidateBytes : Int) : ServerM (Option GoError) :=
  x.resize (x.retainedBytes snapshotBytes candidateBytes)

/-! ## Returned documents -/

/-- `requestBudgets.output`: charge a caller's response memory. -/
def output (owner : Nat) (bytes : Int) : ServerM (Option GoError) :=
  if hasScope x.budgets owner then ask (.output owner bytes) else pure none

/-- `requestBudgets.releaseOutput`. -/
def releaseOutput (owner : Nat) (bytes : Int) : ServerM Unit :=
  if hasScope x.budgets owner then ask (.releaseOutput owner bytes) else pure ()

/-- Charge the growth of one returned document to its caller. -/
def reserveReturn (document : Document) (op : ParsedWrite) : ServerM (Option GoError) := do
  let s ← Exec.get
  match s.returns with
  | none => pure none
  | some r =>
    if op.returnDocument then
      let owner := ownerOf x.budgets op.index
      let charge := document.size + 128
      let difference := max 0 (charge - r.sizes op.index)
      if difference > r.remaining owner then
        pure (some (resourceExhaustedError
          (.text (lit "returned write documents exceed response byte budget"))))
      else do
        let grown ← x.output owner difference
        match grown with
        | some e => pure (some (resourceExhaustedError e))
        | none =>
          setReturns
            { r with
              remaining := update r.remaining owner (r.remaining owner - difference)
              sizes := update r.sizes op.index (max charge (r.sizes op.index)) }
          pure none
    else pure none

/-- `writeReturns.reserve` over the operations of a group. -/
def reserveReturns (document : Document) : List ParsedWrite → ServerM (Option GoError)
  | [] => pure none
  | op :: ops => do
    let err ← x.reserveReturn document op
    match err with
    | some e => pure (some e)
    | none => reserveReturns document ops

/-- Give back what a final result does not retain. -/
def settleReturn (op : ParsedWrite) : ServerM Unit := do
  let s ← Exec.get
  match s.returns with
  | none => pure ()
  | some r =>
    let owner := ownerOf x.budgets op.index
    let retained : Int :=
      match (s.results op.index).document with
      | none => 0
      | some d => d.size + 128
    let unused := max 0 (r.sizes op.index - retained)
    setReturns
      { r with
        remaining := update r.remaining owner (r.remaining owner + unused)
        sizes := update r.sizes op.index 0 }
    x.releaseOutput owner unused

def settleReturns : List ParsedWrite → ServerM Unit
  | [] => pure ()
  | op :: ops => do
    x.settleReturn op
    settleReturns ops

/-! ## Final results -/

variable (ops : List ParsedWrite)

/-- `writeExecutionOptions.complete`: the results of these operations are
final and can be handed to their callers. -/
def complete : ServerM Unit := do
  x.settleReturns ops
  let s ← Exec.get
  ask (.complete (ops.map fun op => (op.index, s.results op.index)))

def settleGroup (stored : Storage.WriteResult) : ServerM Unit := do
  setResults fun results => applyWriteGroupResult ops results stored
  x.complete ops

/-- Settle a group with the storage's answer to its write. -/
def settleStored (stored : Storage.WriteResult) (document : Document) :
    ServerM Unit := do
  setResults fun results =>
    attachWriteDocument ops (applyWriteGroupResult ops results stored) document
  x.complete ops

/-! ## Direct puts -/

/-- The writes of the direct groups; a group whose returned documents do not
fit fails here. -/
def reservePuts : List WriteGroup → ServerM (List Candidate)
  | [] => pure []
  | g :: gs =>
    match g.lastPut? with
    | none => reservePuts gs
    | some put => do
      let err ← x.reserveReturns put.document g.operations
      match err with
      | some e => do
        x.settleGroup g.operations (.ofError e)
        reservePuts gs
      | none => do
        let rest ← reservePuts gs
        pure ((g, ⟨g.address, put.document, put.precondition⟩) :: rest)

def settlePuts : List (Candidate × Storage.WriteResult) → ServerM Unit
  | [] => pure ()
  | ((g, op), stored) :: rest => do
    x.settleStored g.operations stored op.document
    settlePuts rest

def executePuts (groups : List WriteGroup) : ServerM Unit := do
  let planned ← x.reservePuts groups
  if planned.isEmpty then pure ()
  else do
    let response : Fallible (List Storage.WriteResult) ←
      ask (.write (planned.map (·.2)) x.waitUntilVisible)
    match response with
    | .error err => Exec.fail (.status .unavailable (lit "write records: " ++ err.message))
    | .ok stored =>
      if stored.length ≠ planned.length then
        Exec.fail (.status .internal (lit "storage returned an invalid write result count"))
      else x.settlePuts (planned.zip stored)

/-! ## Committing candidates -/

def failCandidates (err : GoError) : List Candidate → ServerM Unit
  | [] => pure ()
  | (g, _) :: rest => do
    x.settleGroup g.operations (.ofError err)
    failCandidates err rest

/-- Distribute the storage's answers; groups whose precondition failed are
returned for another attempt. -/
def settleCandidates : List (Candidate × Storage.WriteResult) → ServerM (List WriteGroup)
  | [] => pure []
  | ((g, op), stored) :: rest =>
    if stored.status = .preconditionFailed then do
      let next ← settleCandidates rest
      pure (g :: next)
    else do
      x.settleStored g.operations stored op.document
      settleCandidates rest

def writeCandidates (candidates : List Candidate) : ServerM (List WriteGroup) := do
  let response : Fallible (List Storage.WriteResult) ←
    ask (.write (candidates.map (·.2)) x.waitUntilVisible)
  match response with
  | .error err => Exec.fail (.status .unavailable (lit "commit folded records: " ++ err.message))
  | .ok stored =>
    if stored.length ≠ candidates.length then
      Exec.fail (.status .internal (lit "storage returned an invalid merge write result count"))
    else x.settleCandidates (candidates.zip stored)

def commitWriteCandidates (candidates : List Candidate) : ServerM (List WriteGroup) :=
  if candidates.isEmpty then pure []
  else do
    contextError
    let s ← Exec.get
    if s.attempt.finalCommit || x.managed then do
      let bytes := (candidates.map fun c => candidateBytes c.2).sum
      let err ← x.retain s.attempt.snapshotBytes (bytes + s.attempt.pendingCandidateBytes)
      match err with
      | some e =>
        if x.managed then do
          x.failCandidates (resourceExhaustedError e) candidates
          pure []
        else Exec.fail e
      | none => x.writeCandidates candidates
    else x.writeCandidates candidates

/-! ## One chunk -/

/-- Evaluate a group against its snapshot. -/
def prepareCandidate (g : WriteGroup) (stored : Storage.ReadResult) :
    ServerM (Option Storage.WriteOperation) := do
  let ctx : Nat → Bool ← ask (.evaluate g.address)
  let s ← Exec.get
  match x.budgets with
  | none =>
    let prepared := prepareWriteGroup ctx g.operations stored s.results
    Exec.modify fun s => { s with results := prepared.2 }
    pure prepared.1
  | some _ =>
    let prepared := prepareBatchedWriteGroup ctx (ownerOf x.budgets) g.operations stored
      s.results s.attempt.inputs s.attempt.outputs
    Exec.modify fun s => { s with
      results := prepared.results
      attempt := { s.attempt with inputs := prepared.inputs, outputs := prepared.outputs } }
    pure prepared.candidate

variable (g : WriteGroup) (op : Storage.WriteOperation)

/-- Fail a candidate that has already grown the lease. -/
def rejectCandidate (err : GoError) :
    ServerM Bool := do
  x.shrinkLease (3 * candidateBytes op)
  x.settleGroup g.operations (.ofError err)
  pure false

/-- Charge a candidate's memory, returned documents and output bytes. -/
def admitCandidate : ServerM Bool := do
  let growthErr ← x.growLease (3 * candidateBytes op)
  match growthErr with
  | some e => do
    x.settleGroup g.operations (.ofError (resourceExhaustedError e))
    pure false
  | none => do
    let returnErr ← x.reserveReturns op.document g.operations
    match returnErr with
    | some e => x.rejectCandidate g op e
    | none =>
      match x.budgets with
      | some _ => pure true
      | none => do
        let s ← Exec.get
        match s.attempt.output.reserve op.document.size with
        | .error e => x.rejectCandidate g op e
        | .ok b => do
          setAttempt fun a => { a with output := b }
          pure true

/-- The loop state of `applyWriteSnapshots`. -/
structure Chunk where
  conflicts : List WriteGroup
  deferred : List WriteGroup
  candidates : List Candidate
  outputBytes : Int

/-- The candidate does not fit beside those already collected. -/
def overflowsChunk (c : Chunk) (op : Storage.WriteOperation) : Bool :=
  decide (callerCount x.budgets > 1) && !c.candidates.isEmpty &&
    decide (candidateBytes op > x.maxReadBytes - c.outputBytes)

/-- Add an admitted candidate, committing the collected ones first when it
does not fit beside them. -/
def addCandidate (g : WriteGroup) (op : Storage.WriteOperation) (c : Chunk) : ServerM Chunk :=
  if x.overflowsChunk c op then do
    setAttempt fun a => { a with pendingCandidateBytes := candidateBytes op }
    let conflicts ← x.commitWriteCandidates c.candidates
    setAttempt fun a => { a with pendingCandidateBytes := 0 }
    x.shrinkLease (3 * c.outputBytes)
    pure { c with
      conflicts := c.conflicts ++ conflicts
      candidates := [(g, op)]
      outputBytes := candidateBytes op }
  else
    pure { c with
      candidates := c.candidates ++ [(g, op)]
      outputBytes := c.outputBytes + candidateBytes op }

/-- The snapshot asks for a later chunk. -/
def isDeferred (stored : Storage.ReadResult) : Bool :=
  match stored.err with
  | none => false
  | some e => e.isSentinel .readWorkingSetFull

def applySnapshot (g : WriteGroup) (stored : Storage.ReadResult) (c : Chunk) : ServerM Chunk :=
  if isDeferred stored then pure { c with deferred := c.deferred ++ [g] }
  else do
    let prepared ← x.prepareCandidate g stored
    match prepared with
    | none => do
      x.complete g.operations
      pure c
    | some op => do
      let admitted ← x.admitCandidate g op
      if admitted then x.addCandidate g op c else pure c

def applySnapshots : List (WriteGroup × Storage.ReadResult) → Chunk → ServerM Chunk
  | [], c => pure c
  | (g, stored) :: rest, c => do
    let c ← x.applySnapshot g stored c
    applySnapshots rest c

/-- The groups to retry in the next attempt and in a later chunk of this one. -/
def applyWriteSnapshots (snapshots : List (WriteGroup × Storage.ReadResult)) :
    ServerM (List WriteGroup × List WriteGroup) := do
  let c ← x.applySnapshots snapshots ⟨[], [], [], 0⟩
  setAttempt fun a => { a with finalCommit := true }
  let conflicts ← x.commitWriteCandidates c.candidates
  setAttempt fun a => { a with finalCommit := false }
  pure (c.conflicts ++ conflicts, c.deferred)

/-! ## One attempt -/

def snapshotRead (g : WriteGroup) : ReadOperation :=
  let count := callerCount x.budgets
  let budget := sharedSnapshotBudget (g.operations.map fun op => ownerOf x.budgets op.index) count
  let budget := if count > 1 then .workingSet budget count else budget
  ⟨g.address, if x.managed then .memory budget else budget⟩

def readWriteSnapshots (groups : List WriteGroup) : ServerM (List Storage.ReadResult) := do
  let s ← Exec.get
  let cells := update s.attempt.cells (callerCount x.budgets) (.new x.maxReadBytes)
  let response : Fallible (List Storage.ReadResult) × (Nat → BudgetCell) ←
    ask (.read (groups.map x.snapshotRead) cells)
  setAttempt fun a => { a with cells := response.2 }
  match response.1 with
  | .error err =>
    Exec.fail (.status .unavailable (lit "read records for conditional write: " ++ err.message))
  | .ok results =>
    if results.length ≠ groups.length then
      Exec.fail (.status .internal
        (lit "storage returned an invalid conditional read result count"))
    else pure results

/-- The budgets an attempt starts with. -/
def freshAttempt : WriteAttempt where
  cells := freshBudgets x.budgets .snapshots x.maxReadBytes
  inputs := freshBudgets x.budgets .inputs x.maxReadBytes
  outputs := freshBudgets x.budgets .outputs x.maxReadBytes
  output := .new x.maxReadBytes
  snapshotBytes := 0
  pendingCandidateBytes := 0
  finalCommit := false

/-- The result of an operation whose working set could not be restored. -/
def exhaustedResult (err : GoError) (result : WriteResult) : WriteResult :=
  setWriteFailure result .resourceExhausted (some err) true

/-- The result of an operation whose record kept changing. -/
def conflictResult (result : WriteResult) : WriteResult :=
  { result with
    status := .preconditionFailed
    failure := some (newFailure .conflict
      (some (.text (lit "record changed during conditional write"))) true) }

/-- Give every operation of the groups one kind of result and publish it. -/
def failGroups (f : WriteResult → WriteResult) : List WriteGroup → ServerM Unit
  | [] => pure ()
  | g :: gs => do
    setResults (updateEach (·.index) (fun _ => f) g.operations)
    x.complete g.operations
    failGroups f gs

/-- One chunk of an attempt: read the snapshots and apply them. -/
def executeChunk (batch : List WriteGroup) : ServerM (List WriteGroup × List WriteGroup) := do
  let snapshots ← x.readWriteSnapshots batch
  setAttempt fun a => { a with
    snapshotBytes := (snapshots.map fun s => s.document.size + 128).sum }
  x.applyWriteSnapshots (batch.zip snapshots)

/-- The loop of `executeWriteAttempt` over the groups still pending. -/
def attemptLoop : Nat → List WriteGroup → Nat → List WriteGroup → ServerM (List WriteGroup)
  | _, [], _, next => pure next
  | 0, _ :: _, _, _ => Exec.diverge
  | fuel + 1, g :: gs, limit, next => do
    contextError
    let resizeErr ← x.resize x.estimate.bytes
    match resizeErr with
    | some e => do
      x.failGroups (exhaustedResult e) (g :: gs)
      pure next
    | none => do
      let count := min limit (gs.length + 1)
      let batch := (g :: gs).take count
      let outcome ← x.executeChunk batch
      let next := next ++ outcome.1
      let pending := (g :: gs).drop count
      if outcome.2.isEmpty then attemptLoop fuel pending limit next
      else attemptLoop fuel (outcome.2 ++ pending) (max 1 (count - outcome.2.length)) next

def executeWriteAttempt (fuel : Nat) (groups : List WriteGroup) : ServerM (List WriteGroup) := do
  setAttempt fun _ => x.freshAttempt
  x.attemptLoop fuel groups groups.length []

/-! ## All attempts, all waves -/

def attempts (fuel : Nat) : Nat → List WriteGroup → ServerM (List WriteGroup)
  | 0, pending => pure pending
  | _ + 1, [] => pure []
  | n + 1, g :: gs => do
    contextError
    let next ← x.executeWriteAttempt fuel (g :: gs)
    attempts fuel n next

def executeConditionalWrites (fuel : Nat) (groups : List WriteGroup) : ServerM Unit := do
  let pending ← x.attempts fuel x.maxMergeAttempts groups
  x.failGroups conflictResult pending

def executeWriteWave (fuel : Nat) (groups : List WriteGroup) : ServerM Unit := do
  x.executePuts (groups.filter (·.directPut))
  x.executeConditionalWrites fuel (groups.filter fun g => !g.directPut)

end WriteExecution

/-- What a group contributes to the current wave and leaves for the next:
operations are executed separately through the last one that returns a
document. -/
def WriteGroup.split (g : WriteGroup) : WriteGroup × Option WriteGroup :=
  match h : g.operations with
  | [] => (g, none)
  | [_] => (g, none)
  | first :: second :: rest =>
    if g.hasReturns then
      (.single first, some
        { address := g.address
          operations := second :: rest
          nonempty := by simp
          sameAddress := fun op hop => g.sameAddress op (by simp [h, hop]) })
    else (g, none)

namespace WriteExecution

variable (x : WriteExecution)

/-- The waves of `executeWriteGroups`; `rounds` bounds the longest group. -/
def waves (fuel : Nat) : Nat → List WriteGroup → ServerM Unit
  | _, [] => pure ()
  | 0, _ :: _ => Exec.diverge
  | rounds + 1, g :: gs => do
    x.executeWriteWave fuel ((g :: gs).map fun g => g.split.1)
    waves fuel rounds ((g :: gs).filterMap fun g => g.split.2)

def waveRounds (groups : List WriteGroup) : Nat :=
  (groups.map fun g => g.operations.length).sum

def executeWriteGroups (fuel : Nat) (groups : List WriteGroup) : ServerM Unit :=
  x.waves fuel (waveRounds groups) groups

end WriteExecution

end Sink
