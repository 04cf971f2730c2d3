import Sink.Lib.Grouping
import Sink.Parse

/-!
# The forwarding protocol

The messages between Gateway and Engine (`forward.proto`) and what
`gateway/batch.go` does with one result message: validate it, number it, make
a failed one, bound its text. Reads, writes and deletes are handled alike,
except where the source switches on the type; `Shape` is what it switches on.

A reply comes from another process, so results may be absent and of any
content. An enum value outside the protocol is `unspecified`: all range checks
refuse both. Status details are copied by both sides and never read.
-/

namespace Sink.Gateway

/-! ## Statuses -/

/-- What `status.Convert` keeps of an error. -/
structure Status where
  code : Nat
  message : GoString
deriving Repr, DecidableEq

namespace Code

def ok : Nat := 0
def canceled : Nat := 1
def unknown : Nat := 2
def invalidArgument : Nat := 3
def deadlineExceeded : Nat := 4
def resourceExhausted : Nat := 8
def failedPrecondition : Nat := 9
def internal : Nat := 13
def unavailable : Nat := 14
def unauthenticated : Nat := 16

end Code

def status (code : Nat) (message : String) : Status := ⟨code, lit message⟩

/-! ## Envelopes -/

/-- The kinds of document bytes that a request has a budget for. -/
inductive Kind where
  | snapshots
  | inputs
  | outputs
  | returns
deriving Repr, DecidableEq

abbrev Budget := Kind → UInt64

def fullBudget (maximum : Nat) : Budget := fun _ => UInt64.ofNat maximum

/-- An absent budget reads as zero. -/
def getBudget : Option Budget → Budget
  | none => fun _ => 0
  | some budget => budget

/-- `forwarding.Version`. -/
def version : Nat := 4

inductive Shape where
  | read
  | write
  | delete
deriving Repr, DecidableEq

/-- The result message of one operation. -/
abbrev Shape.Result : Shape → Type
  | .read => ReadResult
  | .write => WriteResult
  | .delete => DeleteResult

/-- The requests that `records` handles. -/
inductive Request where
  | read (body : ReadRequest)
  | write (body : WriteRequest)
  | delete (body : DeleteRequest)
deriving Repr, DecidableEq

namespace Request

def shape : Request → Shape
  | .read _ => .read
  | .write _ => .write
  | .delete _ => .delete

/-- The record URIs of the operations. -/
def addresses : Request → List GoString
  | .read body => body.operations.map Wire.ReadOperation.getUri
  | .write body => body.operations.map WriteOperation.getUri
  | .delete body => body.operations.map DeleteOperation.getUri

/-- `splitRequest`: the operations at some indexes. -/
def split (indices : List Nat) : Request → Request
  | .read body => .read ⟨indices.map fun i => body.operations.getD i none⟩
  | .write body =>
    .write ⟨indices.map fun i => body.operations.getD i none, body.completionMode,
      body.luaPrograms⟩
  | .delete body =>
    .delete ⟨indices.map fun i => body.operations.getD i none, body.completionMode⟩

/-- The second request consists of the operations that the first one has at the
indexes, in that order, and is otherwise the same. -/
inductive Part (indices : List Nat) : Request → Request → Prop where
  | read {whole part : ReadRequest}
      (operations : part.operations.map some = indices.map (whole.operations[·]?)) :
      Part indices (.read whole) (.read part)
  | write {whole part : WriteRequest}
      (operations : part.operations.map some = indices.map (whole.operations[·]?))
      (mode : part.completionMode = whole.completionMode)
      (programs : part.luaPrograms = whole.luaPrograms) :
      Part indices (.write whole) (.write part)
  | delete {whole part : DeleteRequest}
      (operations : part.operations.map some = indices.map (whole.operations[·]?))
      (mode : part.completionMode = whole.completionMode) :
      Part indices (.delete whole) (.delete part)

theorem map_getD_some {α : Type} {l : List (Option α)} {indices : List Nat}
    (h : ∀ i ∈ indices, i < l.length) :
    (indices.map fun i => l.getD i none).map some = indices.map (l[·]?) := by
  rw [List.map_map]
  refine List.map_congr_left fun i hi => ?_
  simp [h i hi]

theorem split_part {req : Request} {indices : List Nat}
    (h : ∀ i ∈ indices, i < req.addresses.length) : Part indices req (req.split indices) := by
  cases req with
  | read body => exact .read (map_getD_some (by simpa [addresses] using h))
  | write body => exact .write (map_getD_some (by simpa [addresses] using h)) rfl rfl
  | delete body => exact .delete (map_getD_some (by simpa [addresses] using h)) rfl

end Request

structure ForwardRequest where
  version : Nat
  store : GoString
  grant : Option Budget
  request : Option Request

inductive Response where
  | read (results : List (Option ReadResult))
  | write (results : List (Option WriteResult))
  | delete (results : List (Option DeleteResult))
deriving Repr, DecidableEq

structure ForwardResponse where
  version : Nat
  store : GoString
  used : Option Budget
  code : Nat
  message : GoString
  notStarted : Bool
  response : Option Response

/-- `GetRead().GetResults()` and its siblings: nothing from another kind of response. -/
def ForwardResponse.results (reply : ForwardResponse) (σ : Shape) : List (Option σ.Result) :=
  match σ, reply.response with
  | .read, some (.read results) => results
  | .write, some (.write results) => results
  | .delete, some (.delete results) => results
  | _, _ => []

/-- `forward.ResponseFrame`: the announced size, or a piece of the response. -/
structure Frame where
  size : Nat
  data : List UInt8
deriving Repr, DecidableEq

def frameBytes : Nat := 32768

/-! ## Results -/

def operationIndex : {σ : Shape} → σ.Result → Nat
  | .read, r => r.operationIndex
  | .write, r => r.operationIndex
  | .delete, r => r.operationIndex

def getFailure : {σ : Shape} → σ.Result → Option Failure
  | .read, r => r.failure
  | .write, r => r.failure
  | .delete, r => r.failure

def getDocument : {σ : Shape} → σ.Result → Option Document
  | .read, r => r.document
  | .write, r => r.document
  | .delete, _ => none

/-- `OperationIndex = uint32(index)`. -/
def renumber (index : Nat) : {σ : Shape} → σ.Result → σ.Result
  | .read, r => { r with operationIndex := index % 2 ^ 32 }
  | .write, r => { r with operationIndex := index % 2 ^ 32 }
  | .delete, r => { r with operationIndex := index % 2 ^ 32 }

def mapFailure (f : Failure → Failure) : {σ : Shape} → σ.Result → σ.Result
  | .read, r => { r with failure := r.failure.map f }
  | .write, r => { r with failure := r.failure.map f }
  | .delete, r => { r with failure := r.failure.map f }

/-- Whether the status is one that comes with a failure. -/
def isFailed : {σ : Shape} → σ.Result → Bool
  | .read, r => r.status == .failed
  | .write, r => r.status == .failed || r.status == .preconditionFailed
  | .delete, r => r.status == .failed

/-- The status is in range, and a found record has a document. -/
def validStatus : {σ : Shape} → σ.Result → Bool
  | .read, r => r.status != .unspecified && (r.status != .found || r.document.isSome)
  | .write, r => r.status != .unspecified
  | .delete, r => r.status != .unspecified

def validFailure : Option Failure → Bool
  | none => false
  | some failure => failure.code != .unspecified

def validResult {σ : Shape} (result : σ.Result) : Bool :=
  validStatus result &&
    if !isFailed result then (getFailure result).isNone else validFailure (getFailure result)

/-- The result that `failRecords` stores. -/
def failedResult (index : Nat) (failure : Failure) : (σ : Shape) → σ.Result
  | .read => ⟨index % 2 ^ 32, .failed, none, none, some failure⟩
  | .write => ⟨index % 2 ^ 32, .failed, none, some failure, none⟩
  | .delete => ⟨index % 2 ^ 32, .failed, some failure⟩

/-! ## Failures -/

def failureCode (err : Status) : FailureCode :=
  if err.code = Code.invalidArgument ∨ err.code = Code.failedPrecondition then .invalidArgument
  else if err.code = Code.resourceExhausted then .resourceExhausted
  else if err.code = Code.unavailable then .unavailable
  else if err.code = Code.deadlineExceeded ∨ err.code = Code.canceled then .deadlineExceeded
  else .internal

def failure (err : Status) (retrySafe : Bool) : Failure :=
  let code := failureCode err
  { code
    message :=
      if err.message.length > 512 then lit "Engine request failed; diagnostic exceeded limit"
      else err.message
    retryable := retrySafe &&
      (code == .unavailable || code == .resourceExhausted || code == .deadlineExceeded) }

/-- The failure that `failRecords` reports for one operation. -/
def recordFailure (σ : Shape) (err : Status) (notStarted : Bool) : Failure :=
  let failed := failure err (notStarted || σ == .read)
  if !notStarted && σ != .read then
    { failed with
      message :=
        if failed.message.length > 480 then lit "mutation outcome is unknown"
        else lit "mutation outcome is unknown: " ++ failed.message }
  else failed

/-- `failRecords`: the slots it fills. -/
def failRecords (σ : Shape) (indices : List Nat) (err : Status) (notStarted : Bool) :
    List (Nat × σ.Result) :=
  indices.map fun index => (index, failedResult index (recordFailure σ err notStarted) σ)

/-- The text limit of `boundFailures`. -/
def failureLimit (maximum count : Nat) : Nat :=
  (min 512 (max 1 ((maximum : Int) / max 1 count - 128))).toNat

def boundMessage (limit : Nat) (message : GoString) : GoString :=
  if message.length ≤ limit then message
  else
    let cut := message.take (runeBoundary message limit)
    if cut.isEmpty then lit "?" else cut

def boundFailure (limit : Nat) {σ : Shape} (result : σ.Result) : σ.Result :=
  mapFailure (fun failure => { failure with message := boundMessage limit failure.message }) result

/-! ## Facts about one result

Numbering a result and bounding its text leave its validity alone. -/

section

variable {σ : Shape} (r : σ.Result)

@[simp] theorem getDocument_renumber (i : Nat) : getDocument (renumber i r) = getDocument r := by
  cases σ <;> rfl

section

variable (f : Failure → Failure)

@[simp] theorem getFailure_mapFailure : getFailure (mapFailure f r) = (getFailure r).map f := by
  cases σ <;> rfl

end

@[simp] theorem getDocument_boundFailure (limit : Nat) :
    getDocument (boundFailure limit r) = getDocument r := by
  cases σ <;> rfl

end

variable (i : Nat) (f : Failure)

@[simp] theorem getFailure_failedResult (σ : Shape) : getFailure (failedResult i f σ) = some f := by
  cases σ <;> rfl

@[simp] theorem getDocument_failedResult (σ : Shape) : getDocument (failedResult i f σ) = none := by
  cases σ <;> rfl

@[simp] theorem isFailed_failedResult (σ : Shape) : isFailed (failedResult i f σ) = true := by
  cases σ <;> rfl

end Sink.Gateway
