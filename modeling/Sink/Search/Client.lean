import Sink.Lib.Prog
import Sink.MemoryStore
import Sink.Scan.Cursor

/-!
# The search client

`search/client.go`, `bulk.go`, `revision.go` and the multi-get of `read.go`:
how the store talks to an Elasticsearch or OpenSearch backend. A request that
may be repeated is tried on every endpoint, any other is sent once.

`Call` is what leaves the process: one HTTP exchange (`performOnce`), or a look
at the context. An exchange fails, or brings a status code and a body that
`encoding/json` may or may not decode. Which endpoint is tried, and what the
store remembers about endpoints, makes no difference here. A bulk request is
the list of its lines; the call names the writes they stand for, which is not
part of the request.
-/

namespace Sink.SearchStore

open Interact

/-! ## Revisions -/

/-- `binary.BigEndian.Uint64`. -/
def uint64 (bytes : List UInt8) : UInt64 :=
  UInt64.ofNat (bytes.foldl (fun n b => n * 256 + b.toNat) 0)

def encodeRevision (sequenceNumber primaryTerm : Int64) : Fallible Revision :=
  if sequenceNumber < 0 ∨ primaryTerm ≤ 0 then
    refuse "search response contains an invalid sequence number or primary term"
  else
    .ok (Memory.bigEndian64 sequenceNumber.toUInt64.toNat ++
      Memory.bigEndian64 primaryTerm.toUInt64.toNat)

theorem encodeRevision_ok {sequenceNumber primaryTerm : Int64} {revision : Revision} :
    encodeRevision sequenceNumber primaryTerm = .ok revision ↔
      0 ≤ sequenceNumber ∧ 0 < primaryTerm ∧
        revision = Memory.bigEndian64 sequenceNumber.toUInt64.toNat ++
          Memory.bigEndian64 primaryTerm.toUInt64.toNat := by
  have hvalid : ¬(sequenceNumber < 0 ∨ primaryTerm ≤ 0) ↔ 0 ≤ sequenceNumber ∧ 0 < primaryTerm := by
    rw [not_or, Int64.not_lt, Int64.not_le]
  rw [← and_assoc, ← hvalid, encodeRevision]
  split
  · exact ⟨nofun, fun h => absurd ‹_› h.1⟩
  · exact ⟨fun h => ⟨‹_›, (Except.ok.inj h).symm⟩, fun h => congrArg _ h.2.symm⟩

/-- `decodeRevision`: the sequence number and the primary term. -/
def decodeRevision (revision : Revision) : Fallible (Int64 × Int64) :=
  if revision.length ≠ 16 then refuse "search revision must contain 16 bytes"
  else
    let sequenceNumber := (uint64 (revision.take 8)).toInt64
    let primaryTerm := (uint64 (revision.drop 8)).toInt64
    if sequenceNumber < 0 ∨ primaryTerm ≤ 0 then
      refuse "search revision contains an invalid sequence number or primary term"
    else .ok (sequenceNumber, primaryTerm)

/-! ## Messages -/

/-- `errorDetail`, without or with what caused it. -/
inductive ErrorDetail where
  | plain (type reason : GoString)
  | caused (type reason : GoString) (causedBy : ErrorDetail)
deriving Repr, DecidableEq

namespace ErrorDetail

def type : ErrorDetail → GoString
  | .plain type _ => type
  | .caused type _ _ => type

def reason : ErrorDetail → GoString
  | .plain _ reason => reason
  | .caused _ reason _ => reason

def message (detail : ErrorDetail) : GoString :=
  if detail.type = [] then detail.reason
  else if detail.reason = [] then detail.type
  else detail.type ++ lit ": " ++ detail.reason

def error (detail : ErrorDetail) : GoError := .text detail.message

def isIndexNotFound : ErrorDetail → Bool
  | .plain type _ => type == lit "index_not_found_exception"
  | .caused type _ causedBy =>
    type == lit "index_not_found_exception" || causedBy.isIndexNotFound

end ErrorDetail

structure ResolvedDocument where
  index : GoString
  id : GoString
deriving Repr, DecidableEq

structure ReadWork where
  resultIndex : Nat
  document : ResolvedDocument
deriving Repr, DecidableEq

structure MultiGetDocument where
  index : GoString
  id : GoString
  found : Option Bool
  source : List UInt8
  sequence : Option Int64
  primaryTerm : Option Int64
  error : Option ErrorDetail
deriving Repr, DecidableEq

structure WriteWork where
  resultIndex : Nat
  routingKey : GoString
  document : ResolvedDocument
  source : List UInt8
  precondition : Storage.Precondition
  existsOnly : Bool
deriving Repr, DecidableEq

structure BulkActionMetadata where
  document : ResolvedDocument
  sequence : Option Int64
  primaryTerm : Option Int64
deriving Repr, DecidableEq

/-- Two lines of the payload: an action and the document for it. -/
structure BulkLine where
  name : GoString
  metadata : BulkActionMetadata
  source : List UInt8
deriving Repr, DecidableEq

structure BulkRequest where
  payload : List BulkLine
  waitUntilVisible : Bool
deriving Repr, DecidableEq

structure BulkItem where
  index : GoString
  id : GoString
  status : Int
  sequence : Option Int64
  primaryTerm : Option Int64
  error : Option ErrorDetail
deriving Repr, DecidableEq

/-- `apiResponse`: `body` is what `json.Unmarshal` makes of the body, `detail`
what `decodeResponseError` finds in it. -/
structure ApiResponse (β : Type) where
  statusCode : Int
  body : Fallible β
  detail : Option GoError

/-- An error, and whether it is `errResponseTooLarge`. -/
structure Failure where
  err : GoError
  tooLarge : Bool
deriving Repr, DecidableEq

/-- `%w` keeps what the error is. -/
def Failure.wrap (failure : Failure) (text : GoString) : Failure :=
  ⟨.wrapped (text ++ failure.err.message) failure.err, failure.tooLarge⟩

inductive Call where
  /-- `ctx.Err()`. -/
  | ctxErr
  | multiGet (works : List ReadWork) (source : Bool)
  | bulk (works : List WriteWork) (request : BulkRequest)

def Reply : Call → Type
  | .ctxErr => Option ContextErr
  | .multiGet _ _ => Except Failure (ApiResponse (List MultiGetDocument))
  | .bulk _ _ => Except Failure (ApiResponse (List (List (GoString × BulkItem))))

/-- The store. Resolving an address, validating and compacting JSON are given;
there is at least one endpoint. -/
structure Store where
  driver : GoString
  endpoints : Nat
  someEndpoint : 0 < endpoints
  resolve : Address → Fallible ResolvedDocument
  validateDocument : Document → Fallible Unit
  compact : List UInt8 → Fallible (List UInt8)

variable (s : Store)

/-! ## Requests -/

def responseError {β : Type} (response : ApiResponse β) : GoError :=
  let text := s.driver ++ lit " request returned HTTP " ++ decimal response.statusCode
  let cause :=
    match response.detail with
    | some detail => GoError.wrapped (text ++ lit ": " ++ detail.message) detail
    | none => .text text
  if response.statusCode = 413 ∨ response.statusCode = 429 then resourceExhaustedError cause
  else backendError (some cause)

def retryableSearchStatus (statusCode : Int) : Bool :=
  statusCode = 408 ∨ statusCode = 429 ∨ statusCode ≥ 500

def succeeded (statusCode : Int) : Bool := 200 ≤ statusCode ∧ statusCode < 300

/-- One turn of the loop of `perform`: what it returns, or the error with which
it goes on to the next endpoint. -/
def performTurn {β : Type} (retrySafe : Bool)
    (performOnce : Prog Call Reply (Except Failure (ApiResponse β))) :
    Prog Call Reply (Except Failure (Except Failure (ApiResponse β))) :=
  .call .ctxErr fun ctx =>
    match (ctx : Option ContextErr) with
    | some err => .ret (.ok (.error ⟨backendError (some err.raw), false⟩))
    | none =>
      performOnce.bind fun
        | .error failure =>
          .call .ctxErr fun ctx =>
            if (ctx : Option ContextErr).isSome ∨ failure.tooLarge ∨
                failure.err.errorDetails.1 = .resourceExhausted then .ret (.ok (.error failure))
            else if retrySafe then .ret (.error failure)
            else .ret (.ok (.error failure))
        | .ok response =>
          if retryableSearchStatus response.statusCode ∧ retrySafe then
            .ret (.error ⟨responseError s response, false⟩)
          else .ret (.ok (.ok response))

/-- The loop of `perform`, with so many endpoints left after the next one. -/
def performFrom {β : Type} (retrySafe : Bool)
    (performOnce : Prog Call Reply (Except Failure (ApiResponse β))) :
    Nat → Prog Call Reply (Except Failure (ApiResponse β))
  | 0 => (performTurn s retrySafe performOnce).bind fun
      | .ok result => .ret result
      | .error lastErr => .ret (.error lastErr)
  | left + 1 => (performTurn s retrySafe performOnce).bind fun
      | .ok result => .ret result
      | .error _ => performFrom retrySafe performOnce left

def perform {β : Type} (retrySafe : Bool)
    (performOnce : Prog Call Reply (Except Failure (ApiResponse β))) :
    Prog Call Reply (Except Failure (ApiResponse β)) :=
  performFrom s retrySafe performOnce (if retrySafe then s.endpoints - 1 else 0)

/-- The loop of `multiGet` over the documents of an answer. -/
def checkDocuments : Nat → List ReadWork → List MultiGetDocument → Fallible Unit
  | i, work :: works, document :: documents =>
    if document.index = [] ∨ document.id ≠ work.document.id then
      .error (.text (lit "search multi-get result " ++ decimal i ++
        lit " has a missing index or mismatched document ID"))
    else checkDocuments (i + 1) works documents
  | _, _, _ => .ok ()

def multiGetDocuments (works : List ReadWork) (response : ApiResponse (List MultiGetDocument)) :
    Fallible (List MultiGetDocument) :=
  if !succeeded response.statusCode then .error (responseError s response)
  else
    match response.body with
    | .error err =>
      .error (.wrapped (lit "decode search multi-get response: " ++ err.message) err)
    | .ok documents =>
      if documents.length ≠ works.length then
        .error (.text (lit "search returned " ++ decimal documents.length ++
          lit " multi-get results for " ++ decimal works.length ++ lit " operations"))
      else (checkDocuments 0 works documents).map fun _ => documents

/-- The document answers the work. -/
def Matches (work : ReadWork) (document : MultiGetDocument) : Prop :=
  document.index ≠ [] ∧ document.id = work.document.id

variable {documents : List MultiGetDocument}

def multiGet (works : List ReadWork) (source : Bool) :
    Prog Call Reply (Except Failure (List MultiGetDocument)) :=
  (perform s true (.call (.multiGet works source) .ret)).bind fun
    | .error failure => .ret (.error (failure.wrap (lit "read search documents: ")))
    | .ok response => .ret ((multiGetDocuments s works response).mapError (⟨·, false⟩))

/-- The loop of `performBulk` over the items of an answer. -/
def matchItems : Nat → List BulkLine → List (List (GoString × BulkItem)) →
    Fallible (List BulkItem)
  | i, expected :: lines, action :: actions =>
    if action.length ≠ 1 then
      .error (.text (lit "search bulk result " ++ decimal i ++ lit " contains " ++
        decimal action.length ++ lit " actions"))
    else
      match action.lookup expected.name with
      | some item =>
        if item.index = [] ∨ item.id ≠ expected.metadata.document.id then
          .error (.text (lit "search bulk result " ++ decimal i ++ lit (" has a mismatched " ++
            "action or document ID, or a missing index")))
        else (matchItems (i + 1) lines actions).map (item :: ·)
      | none =>
        .error (.text (lit "search bulk result " ++ decimal i ++ lit (" has a mismatched " ++
          "action or document ID, or a missing index")))
  | _, _, _ => .ok []

/-- What `performBulk` makes of a response. -/
def bulkItems (request : BulkRequest)
    (response : ApiResponse (List (List (GoString × BulkItem)))) :
    Fallible (List BulkItem) :=
  if !succeeded response.statusCode then .error (responseError s response)
  else
    match response.body with
    | .error err => .error (.wrapped (lit "decode search bulk response: " ++ err.message) err)
    | .ok items =>
      if items.length ≠ request.payload.length then
        .error (.text (lit "search returned " ++ decimal items.length ++
          lit " bulk results for " ++ decimal request.payload.length ++ lit " operations"))
      else matchItems 0 request.payload items

def performBulk (works : List WriteWork) (request : BulkRequest) :
    Prog Call Reply (Fallible (List BulkItem)) :=
  (perform s false (.call (.bulk works request) .ret)).bind fun
    | .error failure => .ret (.error (failure.wrap (lit "execute search bulk request: ")).err)
    | .ok response => .ret (bulkItems s request response)

end Sink.SearchStore
