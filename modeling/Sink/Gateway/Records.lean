import Sink.Gateway.Messages

/-!
# Requests split over Engines

`gateway/batch.go` and `gateway/server.go`: `records` checks a request, finds
the Engine that owns each record, sends every Engine its operations in one
sub-request, and puts the results together. Sub-requests run one after the
other and share one budget of document bytes, unless none of them uses it.

`World` holds what the rest of the system answers while one request is
handled: admission, the endpoints that discovery reports, and for each
sub-request the state of its connection and the replies. A parallel
sub-request may fill its result slots at any time; `schedule` says in which
order the slots of all of them are filled.
-/

namespace Sink.Gateway

open Grouping Interact

/-! ## Routes -/

structure Route where
  store : GoString
  target : GoString
  insecure : Bool
  serverName : GoString
  endpoint : GoString
deriving Repr, DecidableEq

def Route.zero : Route := ⟨[], [], false, [], []⟩

def bigEndianValue (bytes : List UInt8) : Nat := bytes.foldl (fun n b => n * 256 + b.toNat) 0

variable (sum256 : GoString → GoString) (identity : GoString)

/-- How strongly an endpoint claims a record. -/
def score (route : Route) : Nat :=
  bigEndianValue ((sum256 (sum256 identity ++ 0 :: route.endpoint)).take 8)

/-- One turn of the loop of `affinityRoute`, after the first. -/
def stronger (owner route : Route) : Route :=
  let highest := score sum256 identity owner
  let claim := score sum256 identity route
  if highest < claim ∨ (claim = highest ∧ route.endpoint < owner.endpoint) then route else owner

def affinityRoute : List Route → Route
  | [] => .zero
  | [route] => route
  | first :: rest => rest.foldl (stronger sum256 identity) first

/-! ## The Gateway and its surroundings -/

/-- What a client stream delivers: frames, and then an error or the end. -/
structure Stream where
  frames : List Frame
  ending : Option Status
deriving Repr, DecidableEq

/-- What one call of `forward` meets. -/
structure Line where
  /-- Discovery, asked again for a route without an endpoint. -/
  resolved : Except Status (List GoString)
  /-- The turn of `nativeSequence`. -/
  turn : Nat
  /-- All forwarding slots of the Store are taken. -/
  occupied : Bool
  acquire : Option Status
  /-- `client.Forward`. -/
  unary : ForwardRequest → Except Status ForwardResponse
  /-- The marked error of growing the scratch lease. -/
  scratch : Option Status
  /-- `client.ForwardStream`. -/
  stream : ForwardRequest → Except Status Stream
  /-- Memory for the announced response. -/
  output : Option Status

structure World where
  /-- The error of `begin`. -/
  admission : Option Status
  /-- `discovery.snapshot`, asked by the operation of an index. -/
  discovered : Nat → Route → Except Status (List GoString)
  /-- The surroundings of the sub-request of a number. -/
  line : Nat → Line
  schedule : List Nat

structure Server where
  codec : Codec
  maxOperations : Nat
  maxReadBytes : Nat
  /-- The largest private message. -/
  messageBytes : Nat
  /-- There is a memory pool, so replies are streamed. -/
  managed : Bool
  routes : GoString → Option Route
  unmarshal : List UInt8 → Option ForwardResponse
  maxReadBytes_lt : maxReadBytes < 2 ^ 63

/-- A request as it arrives: the length of a message has 32 bits, and every
operation takes some of it. -/
structure Incoming where
  request : Request
  fits : request.addresses.length ≤ 2 ^ 32

namespace Server

variable (s : Server)

/-! ## Validation -/

def validateCompletion (mode : CompletionMode) : Option Status :=
  if validCompletionMode mode then none
  else some (status Code.invalidArgument "invalid completion mode")

/-- The checks of the three kinds of requests. -/
def validateBody : Request → Option Status
  | .read _ => none
  | .write body =>
    match validateCompletion body.completionMode with
    | some err => some err
    | none =>
      match s.codec.validateLuaDeclarations 0 (fun _ => none) body.luaPrograms with
      | some err => some ⟨Code.invalidArgument, err.message⟩
      | none =>
        if body.hasWriteReturns && body.completionMode == .returnAfterAccepted then
          some (status Code.invalidArgument
            "returned write documents require synchronous completion")
        else none
  | .delete body => validateCompletion body.completionMode

def validateBatch (req : Request) : Except Status (List GoString) :=
  match s.validateBody req with
  | some err => .error err
  | none =>
    if req.addresses.length = 0 then
      .error (status Code.invalidArgument "request must contain operations")
    else if s.maxOperations < req.addresses.length then
      .error (status Code.resourceExhausted "request exceeds operation limit")
    else .ok req.addresses

def parallelBatch : Request → Bool
  | .read _ => false
  | .write body =>
    body.completionMode == .returnAfterAccepted || body.operations.all fun op =>
      !WriteOperation.getReturnDocument op &&
        (WriteOperation.getPut op).any fun put => put.mode == .upsert
  | .delete _ => true

/-! ## Grouping the operations -/

abbrev StoreGroup := Group Route Nat

def routeFor (store : GoString) : Except Status Route :=
  match s.routes store with
  | none => .error (status Code.invalidArgument "Store is not configured")
  | some route => .ok route

/-- `destinations`, on an answer of discovery. -/
def destinations (route : Route) : Except Status (List GoString) → Except Status (List Route)
  | .error err => .error err
  | .ok [] => .error (status Code.unavailable "Store has no resolved Engine endpoints")
  | .ok addresses => .ok (addresses.map fun address => { route with endpoint := address })

/-- The variables of the loop over the operations. `resolved` stands for the
maps of targets and of resolution errors; `failures` are the calls of
`failRecords`. -/
structure Plan where
  groups : List StoreGroup
  resolved : GoString → Option (Except Status (List Route))
  owners : GoString → Option Route
  failures : List (Nat × Status)

namespace Plan

def start : Plan := ⟨[], fun _ => none, fun _ => none, []⟩

def fail (plan : Plan) (index : Nat) (err : Status) : Plan :=
  { plan with failures := plan.failures ++ [(index, err)] }

def join (plan : Plan) (index : Nat) (uri : GoString) (targets : List Route)
    (sum256 : GoString → GoString) : Plan :=
  let owner := (plan.owners uri).getD (affinityRoute sum256 uri targets)
  { plan with
    owners := Function.update plan.owners uri (some owner)
    groups := add owner index plan.groups }

end Plan

/-- The targets of a Store: asked for once, whatever the answer. -/
def resolve (w : World) (plan : Plan) (index : Nat) (store : GoString) (route : Route) :
    Except Status (List Route) :=
  (plan.resolved store).getD (destinations route (w.discovered index route))

/-- One turn of the loop over the operations. -/
def planOne (w : World) (plan : Plan) (index : Nat) (uri : GoString) : Plan :=
  match s.codec.parseAddress uri with
  | .error err => plan.fail index ⟨Code.invalidArgument, err.message⟩
  | .ok address =>
    let store := s.codec.store address
    match s.routeFor store with
    | .error err => plan.fail index err
    | .ok route =>
      let targets := resolve w plan index store route
      let plan := { plan with resolved := Function.update plan.resolved store (some targets) }
      match targets with
      | .error err => plan.fail index err
      | .ok targets => plan.join index uri targets s.codec.sum256

def planFrom (w : World) : Nat → List GoString → Plan → Plan
  | _, [], plan => plan
  | index, uri :: rest, plan => planFrom w (index + 1) rest (s.planOne w plan index uri)

def plan (w : World) (addresses : List GoString) : Plan := s.planFrom w 0 addresses .start

/-! ## Forwarding -/

/-- A reply made by the Gateway: nothing was sent. -/
def localRejection (store : GoString) (err : Status) : ForwardResponse where
  version := version
  store := store
  used := some fun _ => 0
  code := err.code
  message := err.message
  notStarted := true
  response := none

/-- The error of `Recv` after the last frame. -/
def Stream.stop (ending : Option Status) : Status := ending.getD (status Code.unknown "EOF")

/-- The loop of `forwardStream`: data frames until `size` bytes are there. -/
def readData (size : Nat) (ending : Option Status) :
    List UInt8 → List Frame → Except Status (List UInt8 × List Frame)
  | encoded, [] => if size ≤ encoded.length then .ok (encoded, []) else .error (Stream.stop ending)
  | encoded, frame :: frames =>
    if size ≤ encoded.length then .ok (encoded, frame :: frames)
    else if frame.size ≠ 0 ∨ frame.data.length = 0 ∨
        min frameBytes (size - encoded.length) < frame.data.length then
      .error (status Code.internal "invalid Engine response data frame")
    else readData size ending (encoded ++ frame.data) frames

/-- The bytes of the response, once the stream has ended as it should. -/
def receive (output : Option Status) (stream : Stream) : Except Status (List UInt8) :=
  match stream.frames with
  | [] => .error (Stream.stop stream.ending)
  | header :: frames =>
    if header.size = 0 ∨ s.messageBytes < header.size ∨ header.data.length ≠ 0 then
      .error (status Code.internal "invalid Engine response size frame")
    else
      match output with
      | some err => .error err
      | none =>
        match readData header.size stream.ending [] frames with
        | .error err => .error err
        | .ok (_, _ :: _) => .error (status Code.internal "unexpected Engine response frame")
        | .ok (encoded, []) =>
          match stream.ending with
          | some err => .error err
          | none => .ok encoded

def forwardStream (line : Line) (req : ForwardRequest) : Except Status ForwardResponse :=
  match line.scratch with
  | some err => .ok (localRejection req.store err)
  | none => do
    let stream ← line.stream req
    let encoded ← s.receive line.output stream
    match s.unmarshal encoded with
    | none => .error (status Code.internal "invalid encoded Engine response")
    | some response => .ok response

def validUsage (grant used : Budget) : Bool :=
  decide (used .snapshots ≤ grant .snapshots) && decide (used .inputs ≤ grant .inputs) &&
    decide (used .outputs ≤ grant .outputs) && decide (used .returns ≤ grant .returns)

def checkReply (store : GoString) (grant : Budget) (response : ForwardResponse) :
    Except Status ForwardResponse :=
  if response.version ≠ version ∨ response.store ≠ store ∨ response.used.isNone ∨
      Code.unauthenticated < response.code then
    .error (status Code.internal "invalid Engine response identity or version")
  else if !validUsage grant (getBudget response.used) then
    .error (status Code.internal "invalid Engine budget settlement")
  else .ok response

variable (line : Line) (route : Route)

/-- The route with an endpoint. -/
def pick : Except Status Route :=
  if route.endpoint = [] then do
    let targets ← destinations route line.resolved
    .ok (targets.getD (line.turn % targets.length) .zero)
  else .ok route

/-- The request leaves the Gateway, unless it is rejected here. -/
def dispatch : Except Status Route := do
  let route ← pick line route
  if !s.managed && line.occupied then
    .error (status Code.resourceExhausted "Store forwarding capacity is occupied")
  else
    match line.acquire with
    | some err => .error err
    | none => .ok route

def forward (req : ForwardRequest) :
    Except Status ForwardResponse :=
  match s.dispatch line route with
  | .error err => .ok (localRejection route.store err)
  | .ok route => do
    let req := { req with version := version, store := route.store }
    let response ← (if s.managed then s.forwardStream line req else line.unary req)
    checkReply route.store (getBudget req.grant) response

/-! ## Sub-requests -/

/-- The first loop of `mergeResults`; `seen` has the indexes that occurred. -/
def checkResults {σ : Shape} (count : Nat) : List Nat → List (Option σ.Result) → Bool
  | _, [] => true
  | _, none :: _ => false
  | seen, some result :: rest =>
    decide (operationIndex result < count) && !seen.contains (operationIndex result) &&
      validResult result && checkResults count (operationIndex result :: seen) rest

/-- `mergeResults`: the slots it fills. -/
def mergeResults {σ : Shape} (source : List (Option σ.Result)) (indices : List Nat) :
    Except Status (List (Nat × σ.Result)) :=
  if source.length ≠ indices.length then
    .error (status Code.internal "Engine returned an invalid result count")
  else if !checkResults indices.length [] source then
    .error (status Code.internal "Engine returned an invalid operation index")
  else
    .ok (source.filterMap fun result => result.map fun result =>
      let index := indices.getD (operationIndex result) 0
      (index, renumber index result))

/-- One call of `run`: a group, its grant, and what `forward` returned. -/
structure Settlement where
  group : StoreGroup
  grant : Budget
  answer : Except Status ForwardResponse

namespace Settlement

variable (t : Settlement)

/-- What the group is charged; an absent settlement consumes its entire grant. -/
def used : Budget :=
  match t.answer with
  | .error _ => t.grant
  | .ok result => getBudget result.used

def notStarted : Bool :=
  match t.answer with
  | .error _ => false
  | .ok result => result.notStarted

/-- The error of the call, or the slots of the merged results. -/
def merged (σ : Shape) : Except Status (List (Nat × σ.Result)) := do
  let result ← t.answer
  if result.code ≠ Code.ok then .error ⟨result.code, result.message⟩
  else mergeResults (result.results σ) t.group.members

/-- The slots that the group fills. -/
def fills (σ : Shape) : List (Nat × σ.Result) :=
  match t.merged σ with
  | .error err => failRecords σ t.group.members err t.notStarted
  | .ok slots => slots

end Settlement

/-- The operations of a group, with a grant; `forward` fills in the rest. -/
def subRequest (req : Request) (group : StoreGroup) (grant : Budget) : ForwardRequest :=
  ⟨0, [], some grant, some (req.split group.members)⟩

def run (line : Line) (req : Request) (group : StoreGroup) (grant : Budget) : Settlement where
  group := group
  grant := grant
  answer := s.forward line group.key (subRequest req group grant)

/-- `consume`, on `uint64` values. -/
def consume (remaining used : Budget) : Budget := fun kind => remaining kind - used kind

/-- One group after the other, from the group numbered `k` on. -/
def settle (w : World) (req : Request) : Nat → List StoreGroup → Budget → List Settlement
  | _, [], _ => []
  | k, group :: rest, remaining =>
    let t := s.run (w.line k) req group remaining
    t :: settle w req (k + 1) rest (consume remaining t.used)

/-- All groups at once, each with a full budget. -/
def settleParallel (w : World) (req : Request) (groups : List StoreGroup) : List Settlement :=
  groups.zipIdx.map fun (group, k) => s.run (w.line k) req group (fullBudget s.maxReadBytes)

/-- Whether the groups are forwarded at the same time. -/
def parallel (req : Request) (groups : List StoreGroup) : Bool :=
  decide (1 < groups.length) && parallelBatch req

def settlements (w : World) (req : Request) (groups : List StoreGroup) : List Settlement :=
  if parallel req groups then s.settleParallel w req groups
  else s.settle w req 0 groups (fullBudget s.maxReadBytes)

/-! ## The response -/

def fills (w : World) (req : Request) (addresses : List GoString) :
    List (Nat × req.shape.Result) :=
  let plan := s.plan w addresses
  let work := (s.settlements w req plan.groups).map fun t => t.fills req.shape
  plan.failures.flatMap (fun failed => failRecords req.shape [failed.1] failed.2 true) ++
    weave (if parallel req plan.groups then w.schedule else []) work

def records (w : World) (req : Incoming) :
    Except Status (List (Option req.request.shape.Result)) := do
  let addresses ← s.validateBatch req.request
  match w.admission with
  | some err => .error err
  | none =>
    let slots : Nat → Option req.request.shape.Result :=
      updateEach Prod.fst (fun slot _ => some slot.2) (s.fills w req.request addresses)
        fun _ => none
    .ok ((List.range addresses.length).map fun i =>
      (slots i).map (boundFailure (failureLimit s.maxReadBytes addresses.length)))

/-! ## A small Gateway -/

/-- One Store behind one target, unary replies. -/
def plain : Server where
  codec := .plain (lit "s")
  maxOperations := 10
  maxReadBytes := 1000
  messageBytes := 5096
  managed := false
  routes store := if store = lit "s" then some ⟨store, lit "e:1", true, [], []⟩ else none
  unmarshal _ := none
  maxReadBytes_lt := show 1000 < 0x8000000000000000 by decide

end Server

/-- Every call finds its Engine and is answered by `reply`. -/
def World.replying (reply : ForwardRequest → Except Status ForwardResponse) : World where
  admission := none
  discovered _ _ := .ok [lit "e:1"]
  line _ := {
    resolved := .ok []
    turn := 0
    occupied := false
    acquire := none
    unary := reply
    scratch := none
    stream := fun _ => .ok ⟨[], none⟩
    output := none }
  schedule := []

end Sink.Gateway
