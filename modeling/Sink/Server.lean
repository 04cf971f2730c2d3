import Sink.Parse
import Sink.WriteExec

/-!
# Write and delete requests

`Server.write` and `Server.delete` from the request message to the response:
the checks of the request as a whole, admission, parsing, and then either the
execution of the parsed operations or their publication. A failure of the
request as a whole is an error of the program; the failure of one operation
is a result.

The response is a function of the results in memory, computed at the end;
the source fills it in place.
-/

namespace Sink

open Interact

/-! ## Contexts and budgets -/

/-- What the request's context carries: forwarded limits, and whether a
memory scope owns the request's bytes. -/
structure RequestContext where
  tracker : Option Tracker
  scope : Bool

namespace RequestBudgets

def empty : RequestBudgets := ⟨[], 0, [], []⟩

/-- One more caller, with `count` operations. -/
def addContext (b : RequestBudgets) (ctx : RequestContext) (count : Nat) : RequestBudgets where
  owners := b.owners ++ List.replicate count b.count
  count := b.count + 1
  trackers := b.trackers ++ [ctx.tracker]
  scopes := b.scopes ++ [ctx.scope]

end RequestBudgets

def contextBudgets (ctx : RequestContext) (count : Nat) : Option RequestBudgets :=
  if ctx.tracker.isNone && !ctx.scope then none
  else some (RequestBudgets.empty.addContext ctx count)

/-- Every caller's scope owns its input already. -/
def ownsInput : Option RequestBudgets → Bool
  | none => false
  | some b => b.scopes.length == b.count && b.scopes.all id

variable (req : WriteRequest) (budgets : Option RequestBudgets)

/-- How many callers want a document back. -/
def returningCallerCount : Nat :=
  let returning := req.operations.zipIdx.filter fun p => WriteOperation.getReturnDocument p.1
  (returning.map fun p => ownerOf budgets p.2).eraseDups.length

def newWriteReturns (maximum : Int) :
    Option WriteReturns :=
  let limit := fun owner => trackerLimit (trackerOf budgets owner) .returns maximum
  if req.hasWriteReturns then some ⟨limit, limit, fun _ => 0⟩ else none

/-! ## Failure texts of a response -/

/-- The text limit of operation `index`: its caller's results share one quota. -/
def resultLimit (budgets : Option RequestBudgets) (maximum : Int) (count index : Nat) : Int :=
  let own := (List.range count).countP fun i => ownerOf budgets i == ownerOf budgets index
  failureMessageLimit own maximum

def boundFailure (limit : Int) (failure : Option Failure) : Option Failure :=
  failure.map fun f => { f with message := boundedFailureMessage f.message limit }

variable (budgets : Option RequestBudgets) (maximum : Int)

def boundWriteFailures (results : List WriteResult) : List WriteResult :=
  results.mapIdx fun i r =>
    { r with failure := boundFailure (resultLimit budgets maximum results.length i) r.failure }

def boundDeleteFailures (results : List DeleteResult) : List DeleteResult :=
  results.mapIdx fun i r =>
    { r with failure := boundFailure (resultLimit budgets maximum results.length i) r.failure }

/-! ## The server -/

structure Server where
  codec : Codec
  boundStore : GoString
  /-- Memory is leased from the process pool. -/
  managed : Bool
  /-- An asynchronous publisher is configured. -/
  publisher : Bool
  maxOperations : Int
  maxMergeAttempts : Nat
  maxReadBytes : Int

/-- End the request with an error, if there is one. -/
def raise : Option GoError → ServerM Unit
  | none => pure ()
  | some err => Exec.fail err

namespace Server

variable (srv : Server)

/-- `protocol.CheckStore` for the addressed records. -/
def checkStore (uris : List GoString) : Option GoError :=
  if srv.boundStore.isEmpty then
    some (.status .failedPrecondition (lit "process Store is not configured"))
  else if uris.any fun uri => srv.codec.recordStore uri != srv.boundStore then
    some (.status .invalidArgument (lit "request does not belong to the configured Store"))
  else none

def validateOperationCount (count : Nat) : Option GoError :=
  if count ≤ srv.maxOperations then none
  else some (.status .resourceExhausted (lit "request contains " ++ decimal count ++
    lit " operations; maximum is " ++ decimal srv.maxOperations))

/-- The checks of every request that changes records; `kind` is its name. -/
def checkMutations (kind : String) (count : Nat) (mode : CompletionMode) : Option GoError :=
  if count = 0 then
    some (.status .invalidArgument (lit (kind ++ " request must contain operations")))
  else srv.validateOperationCount count <|>
    if validCompletionMode mode then none
    else some (.status .invalidArgument (lit (kind ++ " request has an invalid completion mode")))

/-! ## Estimates -/

def isConditionalPut (op : Option WriteOperation) : Bool :=
  match WriteOperation.getPut op with
  | none => false
  | some put => put.mode != .upsert

/-- The scan of `estimateWriteExecution`: per record how many puts were seen
and whether one of them has a condition. -/
structure EstimateScan where
  bytes : Int
  hasSnapshot : Bool
  puts : Address → Nat × Bool

def estimatePut (op : Option WriteOperation) (scan : EstimateScan) : EstimateScan :=
  match srv.codec.parseAddress (WriteOperation.getUri op) with
  | .error _ => scan
  | .ok address =>
    let count := (scan.puts address).1 + 1
    let conditional := (scan.puts address).2 || isConditionalPut op
    { scan with
      puts := Function.update scan.puts address (count, conditional)
      hasSnapshot := decide (count > 1) && conditional }

def estimateOperation (largestSource : Nat) (hasConditionalPut : Bool) (scan : EstimateScan)
    (op : Option WriteOperation) : EstimateScan :=
  let scan :=
    match WriteOperation.getMerge op with
    | none => scan
    | some merge =>
      { scan with
        hasSnapshot := true
        bytes := scan.bytes + max largestSource merge.getSource.length }
  if hasConditionalPut && !scan.hasSnapshot && (WriteOperation.getPut op).isSome then
    srv.estimatePut op scan
  else scan

/-- The bytes of returned put documents; merges can return anything. -/
def estimateReturns (maximum : Int) : List (Option WriteOperation) → Int → Int
  | [], bytes => min bytes maximum
  | op :: ops, bytes =>
    if !WriteOperation.getReturnDocument op then estimateReturns maximum ops bytes
    else if (WriteOperation.getMerge op).isSome then maximum
    else estimateReturns maximum ops
      (bytes + (PutOperation.getPayload (WriteOperation.getPut op)).length + 128)

variable (req : WriteRequest)

def estimateWriteReturns (callers : Nat) : Int :=
  estimateReturns (srv.maxReadBytes * callers) req.operations 0

def requestRecords : List Address :=
  (req.operations.filterMap fun op =>
    (srv.codec.parseAddress (WriteOperation.getUri op)).toOption).eraseDups

/-- The working sets of the document snapshots and of the outputs. -/
def workingBytes (callers : Nat) : Int :=
  let retained :=
    if callers > 1 then min callers (max 1 (srv.requestRecords req).length) else callers
  srv.maxReadBytes * min (2 * retained) 3

def estimateWriteExecution (callers returningCallers : Nat) :
    WriteExecutionEstimate :=
  let size : Int := srv.codec.writeSize req
  let failures := failureResponseBytes req.operations.length
  if srv.managed then ⟨2 * size + failures, 0⟩
  else
    let largestSource :=
      req.luaPrograms.foldl (fun n p => max n (LuaProgram.getSource p).length) 0
    let hasConditionalPut := decide (req.operations.length > 1) &&
      req.operations.any isConditionalPut
    let scan := req.operations.foldl (srv.estimateOperation largestSource hasConditionalPut)
      ⟨size + failures + srv.estimateWriteReturns req returningCallers, false, fun _ => (0, false)⟩
    if scan.hasSnapshot && req.completionMode != .returnAfterAccepted then
      ⟨scan.bytes + srv.workingBytes req callers, srv.workingBytes req callers⟩
    else ⟨scan.bytes, 0⟩

/-! ## Asynchronous writes -/

/-- The self-contained operation that is queued for a parsed write. -/
def mutation (write : AcceptedWrite) : Mutation :=
  let operation :=
    match write.program, write.original.action with
    | some program, .merge (some merge) =>
      { write.original with action := .merge (some { merge with luaProgram := some program }) }
    | _, _ => write.original
  ⟨some operation, none⟩

/-- Why an operation that the publisher answered has failed, if it has. -/
def publishFailure : PublishResult → Option (FailureCode × Option GoError × Bool)
  | .accepted => none
  | .failed err =>
    let (code, retryable) := storageFailureDetails (some (backendError err))
    some (code, err, retryable)
  | .unsupported =>
    some (.internal, some (.text (lit "publisher returned an unsupported status")), false)

def applyPublishWriteResult (published : PublishResult) (result : WriteResult) : WriteResult :=
  match publishFailure published with
  | none => { result with status := .accepted }
  | some (code, err, retryable) => setWriteFailure result code err retryable

/-- Give every operation the same failure. -/
def failWrites (operations : List AcceptedWrite) (code : FailureCode) (err : GoError) :
    ServerM Unit :=
  setResults (updateEach (·.parsed.index) (fun _ r => setWriteFailure r code (some err) true)
    operations)

/-- Room for the encoded mutations, when the request's memory is counted. -/
def growPublish (scope : Bool) (mutations : List Mutation) : ServerM (Option GoError) :=
  if scope then
    ask (.publishGrow (mutations.map fun m =>
      ((srv.codec.mutationSize m + (WriteOperation.getUri m.write).length : Nat) : Int)).sum)
  else pure none

def publishWrites (scope : Bool) (operations : List AcceptedWrite) : ServerM Unit :=
  if operations.isEmpty then pure ()
  else if !srv.publisher then
    failWrites operations .unavailable (.text (lit "asynchronous publisher is not configured"))
  else do
    let mutations := operations.map mutation
    let refused ← srv.growPublish scope mutations
    match refused with
    | some err => failWrites operations .resourceExhausted err
    | none => do
      let response : Fallible (List PublishResult) ← ask (.publish mutations)
      match response with
      | .error err =>
        Exec.fail (.status .unavailable (lit "publish write operations: " ++ err.message))
      | .ok published =>
        if published.length ≠ operations.length then
          Exec.fail (.status .internal (lit "publisher returned an invalid write result count"))
        else setResults (updateEach (·.1.parsed.index)
          (fun p => applyPublishWriteResult p.2) (operations.zip published))

/-! ## Writes -/

def checkWrite (req : WriteRequest) : Option GoError :=
  srv.checkMutations "write" req.operations.length req.completionMode <|>
    if req.hasWriteReturns && req.completionMode == .returnAfterAccepted then
      some (.status .invalidArgument
        (lit "returned write documents require synchronous completion"))
    else none

def writeAdmission (req : WriteRequest) (budgets : Option RequestBudgets)
    (estimate : WriteExecutionEstimate) : AdmissionRequest where
  encodedBytes := estimate.bytes
  inputBytes := srv.codec.writeSize req + 128 * req.operations.length
  resultBytes := failureResponseBytes req.operations.length
  sharedInput := ownsInput budgets
  wait := budgets.isSome
  publish := req.completionMode == .returnAfterAccepted

/-- Admission by the process pool puts a memory scope into the context. -/
def admitted (ctx : RequestContext) : RequestContext :=
  { ctx with scope := ctx.scope || srv.managed }

def execution (req : WriteRequest) (budgets : Option RequestBudgets)
    (estimate : WriteExecutionEstimate) : WriteExecution where
  maxReadBytes := srv.maxReadBytes
  maxMergeAttempts := srv.maxMergeAttempts
  budgets := budgets
  waitUntilVisible := req.completionMode == .waitUntilVisible
  managed := srv.managed
  estimate := estimate

/-- The memory of an admitted request before its operations are parsed. -/
def started (req : WriteRequest) (x : WriteExecution) : ExecState where
  results := .new
  returns := newWriteReturns req x.budgets x.maxReadBytes
  reservation := if x.managed then ⟨0, 0, false⟩ else .granted x.estimate.bytes
  attempt := x.freshAttempt

/-- Parse the operations from `index` on; one that is invalid has its final
result. -/
def parseWrites (programs : LuaPrograms) :
    Nat → List (Option WriteOperation) → ServerM (List AcceptedWrite)
  | _, [] => pure []
  | index, op :: ops => do
    contextError
    let parsed := srv.codec.parseWrite index op programs
    contextError
    match parsed with
    | .error err => do
      setResults fun results => Function.update results index
        (setWriteFailure (results index) .invalidArgument (some err) false)
      let s ← Exec.get
      let _ : Unit ← ask (.complete [(index, s.results index)])
      parseWrites programs (index + 1) ops
    | .ok write => do
      let rest ← parseWrites programs (index + 1) ops
      pure (write :: rest)

/-- Execute or publish the parsed operations. -/
def perform (fuel : Nat) (scope : Bool) (req : WriteRequest) (x : WriteExecution)
    (operations : List AcceptedWrite) : ServerM Unit :=
  if req.completionMode = .returnAfterAccepted then srv.publishWrites scope operations
  else x.executeWriteGroups fuel (buildWriteGroups (operations.map (·.parsed)))

/-- The response, its failure texts bounded. -/
def writeResponse (req : WriteRequest) (x : WriteExecution) (s : ExecState) : List WriteResult :=
  boundWriteFailures x.budgets x.maxReadBytes ((List.range req.operations.length).map s.results)

/-- An admitted request. -/
def processWrite (fuel : Nat) (scope : Bool) (req : WriteRequest) (x : WriteExecution) :
    ServerM (List WriteResult) :=
  match srv.codec.parseLuaPrograms req.luaPrograms with
  | .error err =>
    Exec.fail (.status .invalidArgument (lit "write request Lua programs: " ++ err.message))
  | .ok programs => do
    Exec.modify fun _ => started req x
    let operations ← srv.parseWrites programs 0 req.operations
    srv.perform fuel scope req x operations
    let s ← Exec.get
    pure (writeResponse req x s)

variable (fuel : Nat) (ctx : RequestContext) (req : WriteRequest)

/-- `Server.write` for a request whose operations come from the callers of
`budgets`. -/
def write (budgets : Option RequestBudgets) : ServerM (List WriteResult) := do
  raise (srv.checkWrite req)
  let estimate := srv.estimateWriteExecution req (callerCount budgets)
    (returningCallerCount req budgets)
  let refused : Option GoError ← ask (.admitRequest (srv.writeAdmission req budgets estimate))
  raise refused
  let ctx := srv.admitted ctx
  let budgets := budgets <|> contextBudgets ctx req.operations.length
  srv.processWrite fuel ctx.scope req (srv.execution req budgets estimate)

def Write :
    ServerM (List WriteResult) := do
  raise (srv.checkStore (req.operations.map WriteOperation.getUri))
  srv.write fuel ctx req (contextBudgets ctx req.operations.length)

/-! ## Deletes -/

def deleteAdmission (req : DeleteRequest) (budgets : Option RequestBudgets) :
    AdmissionRequest where
  encodedBytes := srv.codec.deleteSize req + failureResponseBytes req.operations.length
  inputBytes := srv.codec.deleteSize req + 128 * req.operations.length
  resultBytes := failureResponseBytes req.operations.length
  sharedInput := ownsInput budgets
  wait := budgets.isSome
  publish := req.completionMode == .returnAfterAccepted

/-- A delete operation with its index and its record. -/
structure AcceptedDelete where
  index : Nat
  address : Address
  original : Option DeleteOperation

/-- The valid operations of a request. -/
def acceptedDeletes (req : DeleteRequest) : List AcceptedDelete :=
  req.operations.zipIdx.filterMap fun p =>
    match srv.codec.parseRecord (DeleteOperation.getUri p.1) with
    | .error _ => none
    | .ok address => some ⟨p.2, address, p.1⟩

/-- The results before anything was deleted: invalid operations have failed. -/
def parsedDeletes (req : DeleteRequest) : List DeleteResult :=
  req.operations.mapIdx fun index op =>
    match srv.codec.parseRecord (DeleteOperation.getUri op) with
    | .error err => setDeleteFailure ⟨index, .unspecified, none⟩ .invalidArgument (some err) false
    | .ok _ => ⟨index, .unspecified, none⟩

def applyPublishDeleteResult (published : PublishResult) (result : DeleteResult) : DeleteResult :=
  match publishFailure published with
  | none => { result with status := .accepted }
  | some (code, err, retryable) => setDeleteFailure result code err retryable

def updateDeletes (f : AcceptedDelete → DeleteResult → DeleteResult)
    (operations : List AcceptedDelete) (results : List DeleteResult) : List DeleteResult :=
  operations.foldl (fun results op => results.modify op.index (f op)) results

def publishDeletes (operations : List AcceptedDelete) (results : List DeleteResult) :
    ServerM (List DeleteResult) :=
  if operations.isEmpty then pure results
  else if !srv.publisher then
    pure (updateDeletes (fun _ r => setDeleteFailure r .unavailable
      (some (.text (lit "asynchronous publisher is not configured"))) true) operations results)
  else do
    let response : Fallible (List PublishResult) ←
      ask (.publish (operations.map fun op => ⟨none, op.original⟩))
    match response with
    | .error err =>
      Exec.fail (.status .unavailable (lit "publish delete operations: " ++ err.message))
    | .ok published =>
      if published.length ≠ operations.length then
        Exec.fail (.status .internal (lit "publisher returned an invalid delete result count"))
      else
        pure ((operations.zip published).foldl (fun results p =>
          results.modify p.1.index (applyPublishDeleteResult p.2)) results)

/-- Delete each record once; every operation on it takes that answer. -/
def storeDeletes (req : DeleteRequest) (operations : List AcceptedDelete)
    (results : List DeleteResult) : ServerM (List DeleteResult) :=
  let addresses := (operations.map (·.address)).eraseDups
  if addresses.isEmpty then pure results
  else do
    let response : Fallible (List Storage.DeleteResult) ←
      ask (.delete addresses (req.completionMode == .waitUntilVisible))
    match response with
    | .error err => Exec.fail (.status .unavailable (lit "delete records: " ++ err.message))
    | .ok stored =>
      if stored.length ≠ addresses.length then
        Exec.fail (.status .internal (lit "storage returned an invalid delete result count"))
      else
        pure (updateDeletes (fun op r =>
          applyDeleteResult r (stored.getD (addresses.idxOf op.address) ⟨.unsupported 0, none⟩))
          operations results)

def delete (req : DeleteRequest) (budgets : Option RequestBudgets) :
    ServerM (List DeleteResult) := do
  raise (srv.checkMutations "delete" req.operations.length req.completionMode)
  let refused : Option GoError ← ask (.admitRequest (srv.deleteAdmission req budgets))
  raise refused
  let operations := srv.acceptedDeletes req
  let results ←
    if req.completionMode = .returnAfterAccepted then
      srv.publishDeletes operations (srv.parsedDeletes req)
    else storeDeletes req operations (srv.parsedDeletes req)
  pure (boundDeleteFailures budgets srv.maxReadBytes results)

def Delete (req : DeleteRequest) : ServerM (List DeleteResult) := do
  raise (srv.checkStore (req.operations.map DeleteOperation.getUri))
  srv.delete req none

/-- A small server of the Store `s` without a process pool. -/
def small : Server where
  codec := .plain [115]
  boundStore := [115]
  managed := false
  publisher := false
  maxOperations := 4
  maxMergeAttempts := 2
  maxReadBytes := 1024

end Server

end Sink
