import Sink.Convert
import Sink.Lib.UpdateEach
import Sink.ReadBudget

/-!
# Write groups and their evaluation

A write group is the ordered list of writes for one record address.
`prepareWriteGroup` evaluates the whole group against one snapshot in
memory and folds its successes into a single conditional storage write;
`prepareBatchedWriteGroup` does the same for a group whose operations come
from several RPCs, charging each run of operations to its caller.

The source mutates the result messages in place. Here the results are a
map from operation index to message, threaded through the evaluation.
-/

namespace Sink

open Interact Function

/-- A compiled merge program: whether the context was already done when it
ran, the current document (if any) and the incoming document. -/
abbrev Merger := Bool → Option Document → Document → Fallible Document

/-- A parsed put; its write mode never asks for a revision. -/
structure ParsedPut where
  document : Document
  precondition : Storage.Precondition
  mode : precondition = .none ∨ precondition = .recordExists ∨ precondition = .recordNotExists

structure ParsedMerge where
  incoming : Document
  merger : Merger

inductive Action where
  | put (put : ParsedPut)
  | merge (merge : ParsedMerge)

/-- `parsedWrite`: a validated operation of a write request. -/
structure ParsedWrite where
  index : Nat
  address : Address
  returnDocument : Bool
  action : Action

/-- The operation of an unconditional put. -/
theorem none_mode : (Storage.Precondition.none = .none) ∨ Storage.Precondition.none =
    .recordExists ∨ Storage.Precondition.none = .recordNotExists := .inl rfl

def upsert (index : Nat) (address : Address) (payload : List UInt8) : ParsedWrite :=
  ⟨index, address, false, .put ⟨⟨.json, payload⟩, .none, none_mode⟩⟩

def ParsedWrite.put? (op : ParsedWrite) : Option ParsedPut :=
  match op.action with
  | .put put => some put
  | .merge _ => none

/-- A group contains the ordered writes for one complete record address. -/
structure WriteGroup where
  address : Address
  operations : List ParsedWrite
  nonempty : operations ≠ []
  sameAddress : ∀ op ∈ operations, op.address = address

namespace WriteGroup

def hasReturns (g : WriteGroup) : Bool := g.operations.any (·.returnDocument)

def isUpsert (op : ParsedWrite) : Bool :=
  match op.action with
  | .put put => decide (put.precondition = .none)
  | .merge _ => false

variable (g : WriteGroup)

/-- Single puts and unconditional put chains do not need a snapshot or a CAS. -/
def directPut : Bool :=
  match g.operations with
  | [op] => op.put?.isSome
  | ops => ops.all isUpsert

def lastPut? : Option ParsedPut :=
  (g.operations.getLast g.nonempty).put?

def indexes : List Nat := g.operations.map (·.index)

/-- No index occurs twice in the group. -/
def Distinct : Prop := (g.operations.map (·.index)).Nodup

/-- The group of one operation. -/
def single (op : ParsedWrite) : WriteGroup where
  address := op.address
  operations := [op]
  nonempty := by simp
  sameAddress := by simp

end WriteGroup

/-- The groups an execution works on: one per record, distinct operations. -/
structure WellFormed (groups : List WriteGroup) : Prop where
  distinct : ∀ g ∈ groups, g.Distinct
  apart : groups.Pairwise fun g g' => g.address ≠ g'.address ∧
    ∀ op ∈ g.operations, ∀ op' ∈ g'.operations, op.index ≠ op'.index

/-! ## Evaluating one operation -/

/-- The condition under which a snapshot may be replaced. -/
def snapshotPrecondition (present : Bool) (revision : Revision) : Storage.Precondition :=
  if !present then .recordNotExists
  else if revision.isEmpty then .revisionAbsent
  else .revisionMatches revision

def prepareFoldedPut (op : ParsedWrite) (put : ParsedPut) (current : Storage.ReadResult)
    (result : WriteResult) : Option Storage.WriteOperation × WriteResult :=
  if current.status ≠ .found ∧ current.status ≠ .notFound then
    let cause := current.err.getD
      (.text (lit "storage returned an invalid conditional write snapshot"))
    let (code, retryable) := storageFailureDetails (some cause)
    (none, setWriteFailure result code (some cause) retryable)
  else
    let present := decide (current.status = .found)
    if (put.precondition = .recordExists ∧ present = false) ∨
        (put.precondition = .recordNotExists ∧ present = true) then
      (none, applyWriteResult result ⟨.preconditionFailed, [], none⟩)
    else
      (some ⟨op.address, put.document, snapshotPrecondition present current.revision⟩, result)

def mergeFailureCode (err : GoError) : FailureCode :=
  if err.isSentinel .executionDeadline then .deadlineExceeded
  else if err.isSentinel .executionExhausted then .resourceExhausted
  else if err.isSentinel .invalidProgram ∨ err.isSentinel .invalidIncoming
      ∨ err.isSentinel .invalidResult ∨ err.isSentinel .execution then .invalidArgument
  else .internal

variable (done : Bool) (op : ParsedWrite)

def runMerge (merge : ParsedMerge) (current : Option Document)
    (condition : Storage.Precondition) (result : WriteResult) :
    Option Storage.WriteOperation × WriteResult :=
  match merge.merger done current merge.incoming with
  | .error err => (none, setWriteFailure result (mergeFailureCode err) (some err) done)
  | .ok merged =>
    if merged.payload.isEmpty then
      let err := GoError.text (lit "lua merge program returned an invalid document")
      (none, setWriteFailure result .internal (some err) false)
    else (some ⟨op.address, merged, condition⟩, result)

def prepareMergeOperation (merge : ParsedMerge)
    (stored : Storage.ReadResult) (result : WriteResult) :
    Option Storage.WriteOperation × WriteResult :=
  match stored.status with
  | .found =>
    runMerge done op merge (some stored.document)
      (snapshotPrecondition true stored.revision) result
  | .notFound => runMerge done op merge none .recordNotExists result
  | .failed =>
    let (code, retryable) := storageFailureDetails stored.err
    (none, setWriteFailure result code stored.err retryable)
  | .unsupported value =>
    let err := GoError.text (lit "unsupported storage read status " ++ decimal value)
    (none, setWriteFailure result .internal (some err) false)

def prepareOperation (current : Storage.ReadResult)
    (result : WriteResult) : Option Storage.WriteOperation × WriteResult :=
  match op.action with
  | .put put => prepareFoldedPut op put current result
  | .merge merge => prepareMergeOperation done op merge current result

/-! ## Folding a group -/

/-- Every evaluation starts from a cleared result. -/
def WriteResult.reset (result : WriteResult) : WriteResult :=
  { result with status := .unspecified, revision := none, failure := none, document := none }

/-- The loop state of `prepareWriteGroup`. -/
structure FoldState where
  candidate : Option Storage.WriteOperation
  current : Storage.ReadResult
  results : Results

/-- Keep the first operation's address and precondition, take the newest
document. -/
def extendCandidate (candidate : Option Storage.WriteOperation)
    (merged : Storage.WriteOperation) : Storage.WriteOperation :=
  match candidate with
  | none => merged
  | some first => { first with document := merged.document }

/-- The working state after a successful operation. -/
def advance (current : Storage.ReadResult) (document : Document) : Storage.ReadResult :=
  { current with status := .found, document }

/-- One round of the loop. `ctx i` says whether the context was done when
operation `i` was evaluated. -/
def foldOperation (ctx : Nat → Bool) (st : FoldState) (op : ParsedWrite) : FoldState :=
  match prepareOperation (ctx op.index) op st.current (st.results op.index).reset with
  | (none, result) => { st with results := update st.results op.index result }
  | (some merged, result) =>
    { candidate := some (extendCandidate st.candidate merged)
      current := advance st.current merged.document
      results := update st.results op.index result }

/-- Evaluate the operations in order against a snapshot. -/
def foldOperations (ctx : Nat → Bool) (ops : List ParsedWrite) (st : FoldState) : FoldState :=
  ops.foldl (foldOperation ctx) st

def prepareWriteGroup (ctx : Nat → Bool) (ops : List ParsedWrite) (stored : Storage.ReadResult)
    (results : Results) : Option Storage.WriteOperation × Results :=
  let st := foldOperations ctx ops ⟨none, stored, results⟩
  (st.candidate, st.results)

/-- The final answer for one operation of a group: an evaluated failure
survives only a commit that was applied. -/
def applyGroupResult (stored : Storage.WriteResult) (result : WriteResult) : WriteResult :=
  let result := { result with document := none }
  if stored.status = .applied ∧ result.failure.isSome then result
  else applyWriteResult { result with failure := none } stored

def applyWriteGroupResult (ops : List ParsedWrite) (results : Results)
    (stored : Storage.WriteResult) : Results :=
  updateEach (·.index) (fun _ => applyGroupResult stored) ops results

def attachDocument (returnDocument : Bool) (document : Document) (result : WriteResult) :
    WriteResult :=
  if returnDocument = true ∧ result.status = .applied then
    { result with document := some document }
  else result

def attachWriteDocument (ops : List ParsedWrite) (results : Results) (document : Document) :
    Results :=
  updateEach (·.index) (fun op => attachDocument op.returnDocument document) ops results

/-! ## Groups of several callers -/

def ownerRuns (owner : Nat → Nat) : List ParsedWrite → List (Nat × List ParsedWrite)
  | [] => []
  | op :: ops =>
    match ownerRuns owner ops with
    | [] => [(owner op.index, [op])]
    | (o, part) :: rest =>
      if o = owner op.index then (o, op :: part) :: rest
      else (owner op.index, [op]) :: (o, part) :: rest

/-- The loop state of `prepareBatchedWriteGroup`; budgets are by owner. -/
structure BatchedState where
  candidate : Option Storage.WriteOperation
  current : Storage.ReadResult
  results : Results
  inputs : Nat → BudgetCell
  outputs : Nat → BudgetCell

/-- What became of one caller's run. -/
inductive RunVerdict where
  | kept
  | inputRefused
  | outputRefused
deriving Repr, DecidableEq

/-- Charge the working document to the run's caller; an absent or failed
snapshot costs nothing. -/
def chargeInput (owner : Nat) (st : BatchedState) : Fallible BatchedState :=
  if st.current.status = .found then
    match (st.inputs owner).reserve st.current.document.size with
    | .error e => .error e
    | .ok b => .ok { st with inputs := update st.inputs owner b }
  else .ok st

/-- One round of the loop: charge the input, evaluate the run, charge its
output. A refused run fails as a whole and leaves the working state alone. -/
def prepareRun (ctx : Nat → Bool) (st : BatchedState) (owner : Nat) (part : List ParsedWrite) :
    RunVerdict × BatchedState :=
  match chargeInput owner st with
  | .error e =>
    (.inputRefused, { st with results := applyWriteGroupResult part st.results (.ofError e) })
  | .ok st =>
    match prepareWriteGroup ctx part st.current st.results with
    | (none, results) => (.kept, { st with results })
    | (some prepared, results) =>
      match (st.outputs owner).reserve prepared.document.size with
      | .error e =>
        (.outputRefused,
          { st with results := applyWriteGroupResult part results (.ofError e) })
      | .ok b =>
        (.kept,
          { st with
            candidate := some (extendCandidate st.candidate prepared)
            current := advance st.current prepared.document
            results
            outputs := update st.outputs owner b })

def prepareRuns (ctx : Nat → Bool) :
    List (Nat × List ParsedWrite) → BatchedState → List RunVerdict × BatchedState
  | [], st => ([], st)
  | (owner, part) :: runs, st =>
    let (verdict, st) := prepareRun ctx st owner part
    let (verdicts, st) := prepareRuns ctx runs st
    (verdict :: verdicts, st)

def prepareBatchedWriteGroup (ctx : Nat → Bool) (owner : Nat → Nat) (ops : List ParsedWrite)
    (stored : Storage.ReadResult) (results : Results) (inputs outputs : Nat → BudgetCell) :
    BatchedState :=
  (prepareRuns ctx (ownerRuns owner ops) ⟨none, stored, results, inputs, outputs⟩).2

end Sink
