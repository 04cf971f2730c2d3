import Sink.Lib.Grouping
import Sink.Server

/-!
# Reads

`Server.read` over any Store. The operations of a request are grouped
by record, each record is read once, and its snapshot is charged to all callers
that ask for it. Beside other callers a snapshot also has to fit into a common
working set; a caller with a snapshot that does not is deferred as a whole. The
documents are then charged to their callers once more, per operation, and
callers whose outputs together exceed the server's limit are deferred, too.

`ReadAnswers` is what storage and memory answer during one execution, and
`ReadWorld` what memory answers when the Store is the memory Store.
-/

namespace Sink

open Grouping Function

/-! ## Results -/

def ReadResult.new (index : Nat) : ReadResult := ⟨index, .unspecified, none, none, none⟩

def setReadFailure (result : ReadResult) (code : FailureCode) (err : Option GoError)
    (retryable : Bool) : ReadResult :=
  { result with status := .failed, failure := some (newFailure code err retryable) }

def applyReadResult (result : ReadResult) (stored : Storage.ReadResult) : ReadResult :=
  match stored.status with
  | .found =>
    match stored.document.encoding with
    | .json | .bson =>
      { result with
        status := .found
        document := some stored.document
        revision := some stored.revision }
    | _ =>
      let err := GoError.text (lit "storage returned a document without an encoding")
      setReadFailure result .internal (some err) false
  | .notFound => { result with status := .notFound }
  | .failed =>
    let (code, retryable) := storageFailureDetails stored.err
    setReadFailure result code stored.err retryable
  | .unsupported value =>
    let err := GoError.text (lit "unsupported storage read status " ++ decimal value)
    setReadFailure result .internal (some err) false

def boundReadFailures (budgets : Option RequestBudgets) (maximum : Int)
    (results : List ReadResult) : List ReadResult :=
  results.mapIdx fun i r =>
    { r with failure := boundFailure (resultLimit budgets maximum results.length i) r.failure }

/-! ## One execution -/

structure ReadAnswers where
  admission : Option GoError
  storage : (Nat → BudgetCell) → List ReadOperation → Fallible (List Storage.ReadResult)
  /-- The answer to the response memory of operation `i`. -/
  output : Nat → Option GoError

structure ReadWorld where
  admission : Option GoError
  /-- Answers to the growth of the snapshots' lease. -/
  lease : List (Option GoError)
  output : Nat → Option GoError

/-- The memory Store answers. -/
def ReadWorld.over (world : ReadWorld) (store : Memory.Store) : ReadAnswers where
  admission := world.admission
  storage cells operations := .ok (store.read operations ⟨cells, world.lease⟩).1
  output := world.output

structure ReadOutcome where
  response : List ReadResult
  deferred : Nat → Bool

/-- The loop that charges the outputs: the callers' budgets, the bytes they
were charged, and the refusals by operation. -/
structure OutputState where
  cells : Nat → BudgetCell
  bytes : Nat → Int
  refused : Nat → Option GoError

namespace Server

variable (srv : Server)

/-- The record of operation `i`. -/
def readAddress (ops : List (Option Wire.ReadOperation)) (i : Nat) : Fallible Address :=
  srv.codec.parseRecord (Wire.ReadOperation.getUri (ops.getD i none))

/-- The operations by record, in the order of first use; invalid ones are in no group. -/
def readGroups (ops : List (Option Wire.ReadOperation)) : List (Group Address Nat) :=
  collect (fun i => (srv.readAddress ops i).toOption) (List.range ops.length)

/-- The storage read of one record. -/
def readOperation (budgets : Option RequestBudgets) (g : Group Address Nat) : ReadOperation :=
  let count := callerCount budgets
  let budget := sharedSnapshotBudget (g.members.map (ownerOf budgets)) count
  let budget := if count > 1 then .workingSet budget count else budget
  ⟨g.key, if srv.managed then .memory budget else budget⟩

/-- The budgets behind the snapshots; the cell `callerCount` is the working set. -/
def readCells (budgets : Option RequestBudgets) : Nat → BudgetCell :=
  update (freshBudgets budgets .snapshots srv.maxReadBytes) (callerCount budgets)
    (.new srv.maxReadBytes)

/-- The storage answer for a record of the groups. -/
def storedFor (groups : List (Group Address Nat)) (results : List Storage.ReadResult)
    (address : Address) : Storage.ReadResult :=
  match (groups.zip results).find? fun p => p.1.key == address with
  | some p => p.2
  | none => ⟨.unsupported 0, .empty, [], none⟩

/-- The valid operations with their records, in order. -/
def readIndexes (ops : List (Option Wire.ReadOperation)) : List (Nat × Address) :=
  (List.range ops.length).filterMap fun i =>
    (srv.readAddress ops i).toOption.map fun address => (i, address)

def chargeOutput (budgets : Option RequestBudgets) (deferred : Nat → Bool)
    (stored : Address → Storage.ReadResult) (st : OutputState) (op : Nat × Address) :
    OutputState :=
  let owner := ownerOf budgets op.1
  if deferred owner then st
  else if (stored op.2).status = .found then
    match (st.cells owner).reserve (stored op.2).document.size with
    | .error err => { st with refused := update st.refused op.1 (some err) }
    | .ok cell =>
      { st with
        cells := update st.cells owner cell
        bytes := update st.bytes owner
          (st.bytes owner + ((stored op.2).document.size + 128)) }
  else st

def deferOutputs (bytes : Nat → Int) : List Nat → Int → (Nat → Bool) → Nat → Bool
  | [], _, deferred => deferred
  | owner :: rest, remaining, deferred =>
    if remaining < bytes owner then
      deferOutputs bytes rest remaining (update deferred owner true)
    else deferOutputs bytes rest (remaining - bytes owner) deferred

/-- The result of operation `i`; that of a deferred caller is not looked at. -/
def readResult (output : Nat → Option GoError) (ops : List (Option Wire.ReadOperation))
    (stored : Address → Storage.ReadResult) (refused : Nat → Option GoError) (deferred : Bool)
    (i : Nat) : ReadResult :=
  let result := ReadResult.new i
  match srv.readAddress ops i with
  | .error err => setReadFailure result .invalidArgument (some err) false
  | .ok address =>
    match refused i with
    | some err =>
      let (code, retryable) := storageFailureDetails (some err)
      setReadFailure result code (some err) retryable
    | none =>
      if deferred then result
      else if (stored address).status = .found then
        match output i with
        | some err => setReadFailure result .resourceExhausted (some err) true
        | none => applyReadResult result (stored address)
      else applyReadResult result (stored address)

/-- The answers of the memory Store, by record. -/
def readSnapshots (store : Memory.Store) (world : ReadWorld)
    (ops : List (Option Wire.ReadOperation)) (budgets : Option RequestBudgets) :
    Address → Storage.ReadResult :=
  let groups := srv.readGroups ops
  storedFor groups (store.read (groups.map (srv.readOperation budgets))
    ⟨srv.readCells budgets, world.lease⟩).1

section

variable (ops : List (Option Wire.ReadOperation)) (budgets : Option RequestBudgets)
  (stored : Address → Storage.ReadResult)

/-- The working set was full for a record of the caller. -/
def fullFor (owner : Nat) : Bool :=
  (srv.readIndexes ops).any fun op => ownerOf budgets op.1 == owner &&
    WriteExecution.isDeferred (stored op.2)

def chargedOutputs : OutputState :=
  (srv.readIndexes ops).foldl (chargeOutput budgets (srv.fullFor ops budgets stored) stored)
    ⟨freshBudgets budgets .outputs srv.maxReadBytes, fun _ => 0, fun _ => none⟩

def deferredCallers : Nat → Bool :=
  deferOutputs (srv.chargedOutputs ops budgets stored).bytes (List.range (callerCount budgets))
    srv.maxReadBytes (srv.fullFor ops budgets stored)

/-- The response to the answers of storage. -/
def executeRead (output : Nat → Option GoError) : ReadOutcome where
  response := boundReadFailures budgets srv.maxReadBytes ((List.range ops.length).map fun i =>
    srv.readResult output ops stored (srv.chargedOutputs ops budgets stored).refused
      (srv.deferredCallers ops budgets stored (ownerOf budgets i)) i)
  deferred := srv.deferredCallers ops budgets stored

end

/-- `Server.read`. Without valid operations nothing is read. -/
def read (answers : ReadAnswers) (req : ReadRequest) (budgets : Option RequestBudgets) :
    Fallible ReadOutcome :=
  if req.operations.isEmpty then
    .error (.status .invalidArgument (lit "read request must contain operations"))
  else
    match srv.validateOperationCount req.operations.length with
    | some err => .error err
    | none =>
      match answers.admission with
      | some err => .error err
      | none =>
        let groups := srv.readGroups req.operations
        if groups.isEmpty then
          .ok (srv.executeRead req.operations budgets (storedFor [] []) answers.output)
        else
          match answers.storage (srv.readCells budgets)
              (groups.map (srv.readOperation budgets)) with
          | .error err => .error (.status .unavailable (lit "read records: " ++ err.message))
          | .ok results =>
            if results.length ≠ groups.length then
              .error (.status .internal
                (lit "storage returned an invalid read result count"))
            else
              .ok (srv.executeRead req.operations budgets (storedFor groups results)
                answers.output)

end Server

end Sink
