import Sink.Gateway.Messages
import Sink.Lib.Machine

/-!
# The Engine's side

`forwarding/budget.go`, `engine/server.go` and `engine/stream.go`. An Engine
checks a forwarded request, calls its service and reports in one envelope what
the service returned, what it used of the grant, and whether it was called.

A service charges a `Tracker` in two ways: through budgets made by `Fresh`,
which report each successful charge, and through `Observe` with values within
a limit it asked for. A `Meter` is a tracker with the budgets made from it, and
its actions are everything such a service can do, in any number of attempts
and in any order; `charged` records the sizes that a budget accepted.
-/

namespace Sink.Gateway

/-! ## Trackers -/

structure Tracker where
  limits : Kind → Int
  used : Kind → Int

namespace Tracker

def new (grant : Budget) (maximum : Nat) : Tracker where
  limits kind := min (grant kind).toNat maximum
  used _ := 0

variable (t : Tracker)

def limit (kind : Kind) (maximum : Int) : Int := min maximum (t.limits kind)

def observe (kind : Kind) (used : Int) : Tracker :=
  { t with used := Function.update t.used kind (max (t.used kind) used) }

/-- `Fresh`: a budget whose charges the tracker observes. -/
def fresh (kind : Kind) (maximum : Int) : BudgetCell := .newTracked (t.limit kind maximum)

def usage : Budget := fun kind => UInt64.ofNat (t.used kind).toNat

end Tracker

/-- A budget made by `Fresh`, with the sizes it has accepted. -/
structure Metered where
  kind : Kind
  cell : BudgetCell
  charged : List Int
deriving Repr, DecidableEq

structure Meter where
  tracker : Tracker
  budgets : List Metered

inductive Charge where
  | fresh (kind : Kind) (maximum : Int)
  | reserve (budget : Nat) (size : Int)
  | observe (kind : Kind) (used maximum : Int)
deriving Repr, DecidableEq

namespace Meter

def start (grant : Budget) (maximum : Nat) : Meter := ⟨.new grant maximum, []⟩

variable (m : Meter)

def reserve (j : Nat) (size : Int) : Option Meter :=
  match m.budgets[j]? with
  | none => none
  | some b =>
    match b.cell.reserve size with
    | .error _ => some m
    | .ok cell => some {
        tracker := m.tracker.observe b.kind (cell.maximum - cell.remaining)
        budgets := m.budgets.set j ⟨b.kind, cell, b.charged ++ [size]⟩ }

def step : Charge → Option Meter
  | .fresh kind maximum => some
      { m with budgets := m.budgets ++ [⟨kind, m.tracker.fresh kind maximum, []⟩] }
  | .reserve j size => m.reserve j size
  | .observe kind used maximum =>
    if used ≤ m.tracker.limit kind maximum then
      some { m with tracker := m.tracker.observe kind used }
    else none

end Meter

/-! ## Requests at the Engine -/

/-- What the Engine's service returned, and the tracker it leaves behind. -/
structure Served where
  err : Option Status
  response : Response
  tracker : Tracker

structure Engine where
  store : GoString
  maximum : Nat
  maxRequestBytes : Nat
  codec : Codec
  /-- `SizeVT` of the forwarded request. -/
  size : Request → Nat
  service : Request → Tracker → Served
  marshal : ForwardResponse → List UInt8
  maximum_lt : maximum < 2 ^ 63

namespace Engine

variable (e : Engine)

def checkStore (req : Request) : Option Status :=
  if e.store = [] then some (status Code.failedPrecondition "process Store is not configured")
  else if req.addresses.all fun uri => e.codec.recordStore uri == e.store then none
  else some (status Code.invalidArgument "request does not belong to the configured Store")

/-- The checks of `Forward` before it calls the service. -/
def accept (req : ForwardRequest) : Except Status Request :=
  if req.version ≠ version then
    .error (status Code.failedPrecondition "unsupported forwarding protocol version")
  else if req.store ≠ e.store then
    .error (status Code.failedPrecondition "Engine identity does not match route")
  else if req.grant.isNone then
    .error (status Code.invalidArgument "forwarding budget is required")
  else
    match req.request with
    | none => .error (status Code.invalidArgument "forwarding request is required")
    | some request =>
      if e.maxRequestBytes < e.size request then
        .error (status Code.resourceExhausted "forwarded request exceeds public message limit")
      else
        match e.checkStore request with
        | some err => .error err
        | none => .ok request

/-- `reject`: the status, nil included, and the usage. -/
def reject (response : Option Response) (notStarted : Bool) (tracker : Tracker)
    (err : Option Status) : ForwardResponse where
  version := version
  store := e.store
  used := some tracker.usage
  code := (err.map Status.code).getD Code.ok
  message := (err.map Status.message).getD []
  notStarted := notStarted
  response := response

def forward (req : ForwardRequest) : ForwardResponse :=
  let tracker := Tracker.new (getBudget req.grant) e.maximum
  match e.accept req with
  | .error err => e.reject none true tracker (some err)
  | .ok request =>
    let served := e.service request tracker
    e.reject (some served.response) false served.tracker served.err

/-- The data frames of `ForwardStream`. -/
def chunks : Nat → List UInt8 → List Frame
  | 0, _ => []
  | _ + 1, [] => []
  | n + 1, bytes => ⟨0, bytes.take frameBytes⟩ :: chunks n (bytes.drop frameBytes)

def frames (response : ForwardResponse) : List Frame :=
  let encoded := e.marshal response
  ⟨encoded.length, []⟩ :: chunks encoded.length encoded

/-- Whether `Forward` calls the service. -/
def calls (req : ForwardRequest) : Bool := (e.accept req).toOption.isSome

theorem accept_error {e : Engine} {req : ForwardRequest} (h : e.calls req = false) :
    ∃ err, e.accept req = .error err := by
  unfold calls at h
  cases haccept : e.accept req with
  | error err => exact ⟨err, rfl⟩
  | ok request => simp [haccept, Except.toOption] at h

/-- The envelope says whether the service was called. -/
theorem forward_notStarted (req : ForwardRequest) : (e.forward req).notStarted = !e.calls req := by
  unfold forward calls
  split
  · rename_i herr
    simp [reject, herr, Except.toOption]
  · rename_i hok
    simp [reject, hok, Except.toOption]

/-- An Engine that finds every request too large. -/
def strict : Engine where
  store := lit "s"
  maximum := 1000
  maxRequestBytes := 0
  codec := .plain (lit "s")
  size _ := 1
  service _ tracker := ⟨none, .delete [], tracker⟩
  marshal _ := []
  maximum_lt := by decide

end Engine

end Sink.Gateway
