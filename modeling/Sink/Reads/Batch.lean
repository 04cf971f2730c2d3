import Sink.Reads.Read

/-!
# Coalesced reads

`executeReads` of `batching_server.go`: the read RPCs of one batch are executed
together, as many at a time as fit. A deferred RPC is executed again in a
smaller group, until every RPC has its own response or error.

Callers may go away at any time: `expired` is the error of a call's context
when it is looked at. The loop takes fuel; `none` is running out of it.
-/

namespace Sink

/-- A call that waits for its response. `BatchingServer.Read` takes no empty
requests. -/
structure ReadCall where
  id : Nat
  ctx : RequestContext
  request : ReadRequest
  nonempty : request.operations ≠ []

abbrev ReadReply := Fallible (List ReadResult)

def ReadCall.size (call : ReadCall) : Nat := call.request.operations.length

def totalReadOperations (calls : List ReadCall) : Nat := (calls.map ReadCall.size).sum

/-- What happens around the executions of one batch. -/
structure BatchAnswers where
  expired : Nat → ReadCall → Option GoError
  execution : Nat → ReadAnswers

structure BatchWorld where
  expired : Nat → ReadCall → Option GoError
  execution : Nat → ReadWorld

/-- The memory Store answers. -/
def BatchWorld.over (world : BatchWorld) (store : Memory.Store) : BatchAnswers :=
  ⟨world.expired, fun time => (world.execution time).over store⟩

structure BatchingServer where
  server : Server
  /-- `SizeVT` of a request. -/
  readSize : ReadRequest → Int
  /-- The bytes that may be in flight, or the limit of the memory pool. -/
  byteLimit : Int
  maxReadBytes_pos : 0 < server.maxReadBytes

/-- A batch as the batcher selects it: distinct calls, and together no more
operations than one request may have. -/
structure ReadBatch (b : BatchingServer) where
  calls : List ReadCall
  distinct : (calls.map ReadCall.id).Nodup
  bounded : (totalReadOperations calls : Int) ≤ b.server.maxOperations

/-- The operations of all calls. -/
def combinedRead (calls : List ReadCall) : ReadRequest :=
  ⟨calls.flatMap fun call => call.request.operations⟩

def callBudgets (calls : List ReadCall) : RequestBudgets :=
  calls.foldl (fun budgets call => budgets.addContext call.ctx call.size) .empty

/-- Hand out the results, the owner numbered `owner` first; deferred calls stay. -/
def splitResults (deferred : Nat → Bool) :
    Nat → List ReadResult → List ReadCall → List (Nat × ReadReply) × List ReadCall
  | _, _, [] => ([], [])
  | owner, results, call :: calls =>
    let rest := splitResults deferred (owner + 1) (results.drop call.size) calls
    if deferred owner then (rest.1, call :: rest.2)
    else
      let own := (results.take call.size).mapIdx fun i r =>
        { r with operationIndex := i % 2 ^ 32 }
      ((call.id, .ok own) :: rest.1, rest.2)

def splitReadResponse (calls : List ReadCall) (outcome : Fallible ReadOutcome) :
    List (Nat × ReadReply) × List ReadCall :=
  match outcome with
  | .error err => (calls.map fun call => (call.id, .error err), [])
  | .ok outcome =>
    if outcome.response.length ≠ totalReadOperations calls then
      (calls.map fun call => (call.id, .error (.status .internal
        (lit "batched read returned an invalid result count"))), [])
    else splitResults outcome.deferred 0 outcome.response calls

variable (world : BatchAnswers) (time : Nat) (calls : List ReadCall)

def expiredReplies :
    List (Nat × ReadReply) :=
  calls.filterMap fun call => (world.expired time call).map fun err => (call.id, .error err)

/-- `liveMutationCalls`. -/
def liveCalls : List ReadCall :=
  calls.filter fun call => (world.expired time call).isNone

namespace BatchingServer

variable (b : BatchingServer)

def callBytes (call : ReadCall) : Int :=
  b.readSize call.request + failureResponseBytes call.size

/-- How many more calls fit into a group of `bytes`. -/
def fitting : Nat → Int → List ReadCall → Nat
  | 0, _, _ => 0
  | _ + 1, _, [] => 0
  | limit + 1, bytes, call :: calls =>
    if b.byteLimit - bytes < b.callBytes call then 0
    else fitting limit (bytes + b.callBytes call) calls + 1

/-- The size of the next group; the first call always belongs to it. -/
def groupCount : Nat → List ReadCall → Nat
  | 0, _ => 0
  | _ + 1, [] => 0
  | limit + 1, call :: calls =>
    let bytes := if b.server.managed then 0 else 2 * b.server.maxReadBytes
    b.fitting limit (bytes + b.callBytes call) calls + 1

def executeGroup (answers : ReadAnswers) (group : List ReadCall) :
    List (Nat × ReadReply) × List ReadCall :=
  splitReadResponse group
    (b.server.read answers (combinedRead group) (some (callBudgets group)))

/-- The loop of `executeReads`; `time` counts its turns. -/
def readLoop (world : BatchAnswers) :
    Nat → Nat → Nat → List ReadCall → Option (List (Nat × ReadReply))
  | _, _, _, [] => some []
  | 0, _, _, _ :: _ => none
  | fuel + 1, time, limit, call :: calls =>
    let count := b.groupCount limit (call :: calls)
    let chosen := (call :: calls).take count
    let tail := (call :: calls).drop count
    let expired := expiredReplies world time chosen
    let group := liveCalls world time chosen
    if group.isEmpty then
      (readLoop world fuel (time + 1) limit tail).map fun rest => expired ++ rest
    else
      let (replies, deferred) := b.executeGroup (world.execution time) group
      let limit := if deferred.isEmpty then limit else max 1 (group.length - deferred.length)
      (readLoop world fuel (time + 1) limit (deferred ++ tail)).map fun rest =>
        expired ++ replies ++ rest

def executeReads (world : BatchAnswers) (fuel : Nat) (calls : List ReadCall) :
    Option (List (Nat × ReadReply)) :=
  let live := liveCalls world 0 calls
  (b.readLoop world fuel 1 live.length live).map fun rest =>
    expiredReplies world 0 calls ++ rest

end BatchingServer

end Sink
