import Sink.Lib.Machine
import Sink.Reservation

/-!
# Waiting for admission

`admission.go`, `admission_queue.go` and `reservation.go` with all callers of
one pool. A call of `admitRequest` is a number; what its goroutine does next is
its `Phase`. Everything between locking and unlocking the pool's mutex is one
function here, so the states between actions are those with no thread inside
the critical section.

A call that found the pool full sleeps until its channel has a token or its
context is done. A call that ends while it is queued runs the deferred removal
later, in a critical section of its own; until then it is `leaving`. Metrics
and deadlines are left out: a context may be done at any time.
-/

namespace Sink.Admission

structure Limits where
  maxInFlightRequests : Nat
  maxInFlightBytes : Nat
  maxScanRequests : Nat
  maxScanBytes : Nat
  maxQueuedRequests : Nat
  maxQueuedBytes : Nat
deriving Repr, DecidableEq

/-- `admissionRequest`. -/
structure Request where
  encodedBytes : Nat
  inputBytes : Nat
  wait : Bool
  scan : Bool
  direct : Bool
  /-- Whether the caller may resize what it was admitted with. -/
  reservation : Bool
deriving Repr, DecidableEq

/-- Why `rejectAdmission` was called. -/
inductive Reason where
  | requests
  | bytes
  | fairness
  | queue
  | waitTimeout
deriving Repr, DecidableEq

inductive Ending where
  | rejected (reason : Reason)
  | canceled
  | released
deriving Repr, DecidableEq

inductive Phase where
  /-- At the top of the loop, before the critical section. -/
  | trying
  /-- In the select of the loop. -/
  | sleeping
  /-- Returned while queued, before the deferred removal. -/
  | leaving (ending : Ending)
  /-- Admitted, with the current size of its reservation. -/
  | admitted (bytes : Int)
  | ended (ending : Ending)
deriving Repr, DecidableEq

structure Call where
  request : Request
  phase : Phase
  /-- The channel `ready` holds a token. -/
  ready : Bool
deriving Repr, DecidableEq

/-- `admissionPool`, and the calls made so far. -/
structure State where
  inFlightRequests : Int
  inFlightBytes : Int
  scanRequests : Int
  scanBytes : Int
  queuedRequests : Int
  queuedBytes : Int
  /-- `admissionWaiters`, the oldest first. -/
  waiters : List Nat
  calls : Nat
  call : Nat → Call

def State.start : State where
  inFlightRequests := 0
  inFlightBytes := 0
  scanRequests := 0
  scanBytes := 0
  queuedRequests := 0
  queuedBytes := 0
  waiters := []
  calls := 0
  call := fun _ => ⟨⟨0, 0, false, false, false, false⟩, .ended .canceled, false⟩

inductive Action where
  /-- A new call of `admitRequest`. -/
  | call (request : Request)
  /-- The critical section of the loop. -/
  | check (t : Nat)
  /-- A sleeping call receives its token. -/
  | wakeUp (t : Nat)
  /-- The caller's context is done. -/
  | cancel (t : Nat)
  /-- The wait of a queued call is over. -/
  | timeOut (t : Nat)
  /-- The deferred removal of a call that ended while it was queued. -/
  | leave (t : Nat)
  | release (t : Nat)
  /-- `admissionReservation.resize`. -/
  | resize (t : Nat) (bytes : Int)
deriving Repr, DecidableEq

namespace State

variable (lim : Limits) (s : State)

def request (t : Nat) : Request := (s.call t).request

def phase (t : Nat) : Phase := (s.call t).phase

def ready (t : Nat) : Bool := (s.call t).ready

def setPhase (t : Nat) (phase : Phase) : State :=
  { s with call := Function.update s.call t { s.call t with phase := phase } }

def setReady (t : Nat) (ready : Bool) : State :=
  { s with call := Function.update s.call t { s.call t with ready := ready } }

/-! ## Capacity -/

/-- No execution slot is left for the request; global bytes are not counted. -/
def admissionSlotsFull (r : Request) : Bool :=
  decide (s.inFlightRequests ≥ lim.maxInFlightRequests) ||
    (r.scan && (decide (s.scanRequests ≥ lim.maxScanRequests) ||
      decide (r.encodedBytes > lim.maxScanBytes - s.scanBytes)))

def bytesFull (r : Request) : Bool :=
  decide (r.encodedBytes > lim.maxInFlightBytes - s.inFlightBytes)

def directWaitQueueFull (r : Request) : Bool :=
  decide (s.queuedRequests ≥ lim.maxQueuedRequests) ||
    decide (r.inputBytes > lim.maxQueuedBytes - s.queuedBytes)

def queuedScans : List Request := (s.waiters.map s.request).filter (·.scan)

def scanWaitQueueFull (r : Request) : Bool :=
  decide (s.queuedScans.length ≥ lim.maxScanRequests) ||
    decide (r.encodedBytes > (lim.maxScanBytes : Int) - (s.queuedScans.map (·.encodedBytes)).sum)

/-- The waiter has a free slot. -/
def eligible (t : Nat) : Bool := !s.admissionSlotsFull lim (s.request t)

/-- The waiters that came before the call; all of them, if it is not queued. -/
def older (t : Nat) : List Nat := s.waiters.takeWhile (· != t)

/-! ## The queue -/

/-- Hand capacity to the oldest eligible waiter, if its bytes fit. -/
def wakeAdmissionWaiter : State :=
  match s.waiters.find? (s.eligible lim) with
  | none => s
  | some t => if s.bytesFull lim (s.request t) then s else s.setReady t true

def adjustDirectQueue (r : Request) (delta : Int) : State :=
  if r.direct then
    { s with
      queuedRequests := s.queuedRequests + delta
      queuedBytes := s.queuedBytes + delta * r.inputBytes }
  else s

/-- Append the call to the queue, with an empty channel. -/
def enqueue (t : Nat) : State :=
  ({ s.setReady t false with waiters := s.waiters ++ [t] }).adjustDirectQueue (s.request t) 1

def removeAdmissionWaiter (t : Nat) : State :=
  if t ∈ s.waiters then
    (({ s with waiters := s.waiters.erase t }).adjustDirectQueue
      (s.request t) (-1)).wakeAdmissionWaiter lim
  else s

/-! ## The loop of `admitRequest` -/

/-- The wait of the call has a deadline of its own. -/
def waitExpires (r : Request) : Bool := (r.scan && r.wait) || r.direct

/-- Return from the loop: a queued call still has to be removed. -/
def giveUp (t : Nat) (ending : Ending) : State :=
  s.setPhase t (if t ∈ s.waiters then .leaving ending else .ended ending)

/-- The execution counts a request; `sign` is 1 for admission and -1 for release. -/
def count (r : Request) (sign bytes : Int) : State :=
  { s with
    inFlightRequests := s.inFlightRequests + sign
    inFlightBytes := s.inFlightBytes + bytes
    scanRequests := if r.scan then s.scanRequests + sign else s.scanRequests
    scanBytes := if r.scan then s.scanBytes + sign * r.encodedBytes else s.scanBytes }

def startExecution (t : Nat) : State :=
  let r := s.request t
  ((s.count r 1 r.encodedBytes).setPhase t (.admitted r.encodedBytes)).removeAdmissionWaiter lim t

def admissionCanFit (r : Request) : Bool :=
  decide (r.encodedBytes ≤ lim.maxInFlightBytes) &&
    (!r.scan || decide (r.encodedBytes ≤ lim.maxScanBytes))

/-- What a call does that found the pool full. -/
def waitForChange (t : Nat) (reason : Reason) : State :=
  let r := s.request t
  if r.wait && admissionCanFit lim r then
    if t ∈ s.waiters then s.setPhase t .sleeping
    else if r.direct && s.directWaitQueueFull lim r then s.giveUp t (.rejected .queue)
    else if r.scan && s.scanWaitQueueFull lim r then s.giveUp t (.rejected .queue)
    else (s.enqueue t).setPhase t .sleeping
  else s.giveUp t (.rejected reason)

/-- The critical section of the loop. -/
def check (t : Nat) : State :=
  let r := s.request t
  if s.admissionSlotsFull lim r || s.bytesFull lim r then
    s.waitForChange lim t (if s.bytesFull lim r then .bytes else .requests)
  else if (s.older t).any (s.eligible lim) then s.waitForChange lim t .fairness
  else s.startExecution lim t

/-! ## Admitted requests -/

def release (t : Nat) (bytes : Int) : State :=
  ((s.count (s.request t) (-1) (-bytes)).setPhase t (.ended .released)).wakeAdmissionWaiter lim

/-- The reservation of `bytes` takes or returns `delta` more. -/
def applyResize (t : Nat) (bytes delta : Int) : State :=
  { s.setPhase t (.admitted bytes) with inFlightBytes := s.inFlightBytes + delta }

/-- Growth is refused when the bytes are not free or a waiter has a free slot. -/
def growthRefused (delta : Int) : Bool :=
  decide (delta > lim.maxInFlightBytes - s.inFlightBytes) || s.waiters.any (s.eligible lim)

/-- Resize the reservation of an admitted call that holds `held` bytes. -/
def resize (t : Nat) (held bytes : Int) : State :=
  if bytes < 0 ∨ bytes > (s.request t).encodedBytes then s
  else
    let delta := bytes - held
    if delta = 0 then s
    else if delta > 0 ∧ s.growthRefused lim delta = true then s
    else if delta < 0 then (s.applyResize t bytes delta).wakeAdmissionWaiter lim
    else s.applyResize t bytes delta

def step : Action → Option State
  | .call request => some
      { s with
        calls := s.calls + 1
        call := Function.update s.call s.calls ⟨request, .trying, false⟩ }
  | .check t =>
    if t < s.calls ∧ s.phase t = .trying then some (s.check lim t) else none
  | .wakeUp t =>
    if t < s.calls ∧ s.phase t = .sleeping ∧ s.ready t = true then
      some ((s.setReady t false).setPhase t .trying)
    else none
  | .cancel t =>
    if t < s.calls ∧ (s.phase t = .trying ∨ s.phase t = .sleeping) then
      some (s.giveUp t .canceled)
    else none
  | .timeOut t =>
    if t < s.calls ∧ (s.phase t = .trying ∨ s.phase t = .sleeping) ∧ t ∈ s.waiters ∧
        waitExpires (s.request t) = true then
      some (s.giveUp t (.rejected .waitTimeout))
    else none
  | .leave t =>
    match s.phase t with
    | .leaving ending =>
      if t < s.calls then some ((s.removeAdmissionWaiter lim t).setPhase t (.ended ending))
      else none
    | _ => none
  | .release t =>
    match s.phase t with
    | .admitted bytes => if t < s.calls then some (s.release lim t bytes) else none
    | _ => none
  | .resize t bytes =>
    match s.phase t with
    | .admitted held =>
      if t < s.calls ∧ (s.request t).reservation = true then
        some (s.resize lim t held bytes)
      else none
    -- a released reservation refuses every resize
    | .ended .released => if t < s.calls then some s else none
    | _ => none

end State

end Sink.Admission
