import Sink.Batches.Selection
import Sink.Lib.Machine

/-!
# The queue of a batcher

`Submit`, `run` and `drain` of `batcher.go`: any number of callers and the
dispatcher of one batcher. A call of `Submit` is a number; what its goroutine
does next is its `Stage`. The dispatcher is at a `Phase` of its loop, and has
a list of steps to do first (`todo`).

Everything between locking and unlocking `queueMu` is one action; for `reserve`
it happens when the context is looked at, since nobody can see the queue before
the mutex is free again. A select is as many actions as it has cases, and may
take any that is ready. Time, wake-ups and running executions are left to the
environment: a timer may fire, a caller may give up, a record may become free
and an execution may end at any time. `reserved`, `released`, `accepted`,
`completed` and `executed` only record what happened.
-/

namespace Sink.Queue

/-- `requestBatcher`, as configured. No limit on running batches is `0`. -/
structure Batcher extends RequestBatcher where
  maxConcurrent : Nat
  maxQueuedOperations : Nat
  maxQueuedBytes : Nat
deriving Repr, DecidableEq

def shuttingDown : GoError :=
  .status .unavailable (lit "synchronous batcher is shutting down")

def queueFull : GoError := .status .resourceExhausted (lit "synchronous batch queue is full")

/-- Where a call of `Submit` is. -/
inductive Stage where
  /-- Not made yet. -/
  | ahead
  /-- Before `reserve`. -/
  | reserving
  /-- Before the first select. -/
  | reserved
  /-- In the second select. -/
  | sending
  /-- Before `release`, and what is returned then. -/
  | withdrawing (err : GoError)
  /-- In the last select. -/
  | accepted
  /-- An answer, or the error. -/
  | returned (err : Option GoError)
deriving Repr, DecidableEq

/-- A step that the dispatcher is about to do. -/
inductive Work where
  | release (t : Nat)
  /-- `completeCall` with an error. -/
  | complete (t : Nat) (err : GoError)
  /-- `go executeBatch`. -/
  | start (batch : List Nat)
deriving Repr, DecidableEq

inductive Phase where
  /-- At the top of the loop. -/
  | top
  /-- In the loop `drainInput`. -/
  | receiving
  /-- In the loop over the pending calls, before these. -/
  | checking (rest : List Nat)
  /-- Before `selectReady`. -/
  | choosing
  /-- In the select at the end of the loop. -/
  | waiting
  /-- `drain`, before `queuedCallCount`. -/
  | counting
  /-- In the select of `drain`. -/
  | draining
  /-- Waiting for the running batches. -/
  | finishing
  | stopped
deriving Repr, DecidableEq

structure State where
  /-- `b.ctx` is done. -/
  canceled : Bool
  /-- The callers' contexts. -/
  done : Nat → Option ContextErr
  queuedCalls : Int
  queuedOperations : Int
  queuedBytes : Int
  stage : Nat → Stage
  /-- The channel, the oldest call first. -/
  input : List Nat
  phase : Phase
  todo : List Work
  pending : List Nat
  running : Nat
  reserved : List Nat
  released : List Nat
  accepted : List Nat
  completed : List Nat
  executed : List Nat

def State.new : State where
  canceled := false
  done := fun _ => none
  queuedCalls := 0
  queuedOperations := 0
  queuedBytes := 0
  stage := fun _ => .ahead
  input := []
  phase := .top
  todo := []
  pending := []
  running := 0
  reserved := []
  released := []
  accepted := []
  completed := []
  executed := []

/-- What a call of `Submit` can do. -/
inductive Move where
  /-- Start, and look at its context. -/
  | submit
  | reserve
  /-- The first select. -/
  | look
  /-- The second select: the call is sent, -/
  | send
  /-- its context is done, -/
  | abandon
  /-- or the batcher's. -/
  | refuse
  /-- `release` after the first or the second select. -/
  | withdraw
  /-- The last select: there is an answer, -/
  | answer
  /-- the caller's context is done, -/
  | giveUp
  /-- or the batcher's. -/
  | leave
deriving Repr, DecidableEq

/-- What the dispatcher can do. -/
inductive Turn where
  /-- The next step of `todo`. -/
  | work
  /-- Look at the context at the top of the loop. -/
  | loop
  /-- Take a call from the channel. -/
  | receive
  /-- Find the channel empty. -/
  | default
  /-- Look at the next pending call. -/
  | check
  /-- Select a batch: the records in use, and whether the first call has waited
  long enough. -/
  | choose (active : Address → Nat) (waited : Bool)
  /-- Take note of a batch that has ended. -/
  | finish
  /-- A timer, a record that became free, or a caller that gave up. -/
  | wake
  /-- Read `queuedCalls`. -/
  | count

inductive Action where
  | caller (t : Nat) (move : Move)
  | dispatcher (turn : Turn)
  /-- The context of a caller is done. -/
  | cancel (t : Nat) (err : ContextErr)
  | stop

namespace State

variable {Request : Type} (b : Batcher) (calls : Nat → BatchCall Request) (s : State)

def setStage (t : Nat) (stage : Stage) : State :=
  { s with stage := Function.update s.stage t stage }

@[simp] theorem setStage_self (t : Nat) (stage : Stage) : (s.setStage t stage).stage t = stage := by
  simp [setStage]

theorem setStage_of_ne {t u : Nat} (h : u ≠ t) (stage : Stage) :
    (s.setStage t stage).stage u = s.stage u := by
  simp [setStage, h]

/-! ## Submitting -/

/-- What `reserve` demands. -/
def full (t : Nat) : Bool :=
  decide (((calls t).operationCount : Int) > b.maxQueuedOperations) ||
    decide (s.queuedOperations > b.maxQueuedOperations - (calls t).operationCount) ||
    decide (((calls t).encodedBytes : Int) > b.maxQueuedBytes) ||
    decide (s.queuedBytes > b.maxQueuedBytes - (calls t).encodedBytes)

def reserve (t : Nat) : State :=
  if s.canceled then s.setStage t (.returned (some shuttingDown))
  else if s.full b calls t then s.setStage t (.returned (some queueFull))
  else
    { s.setStage t .reserved with
      queuedCalls := s.queuedCalls + 1
      queuedOperations := s.queuedOperations + (calls t).operationCount
      queuedBytes := s.queuedBytes + (calls t).encodedBytes
      reserved := t :: s.reserved }

def release (t : Nat) : State :=
  { s with
    queuedCalls := s.queuedCalls - 1
    queuedOperations := s.queuedOperations - (calls t).operationCount
    queuedBytes := s.queuedBytes - (calls t).encodedBytes
    released := t :: s.released }

/-- `Submit`, from where it is. -/
def submit (t : Nat) : Stage → Move → Option State
  | .ahead, .submit =>
    match s.done t with
    | some err => some (s.setStage t (.returned (some err.error)))
    | none => some (s.setStage t .reserving)
  | .reserving, .reserve => some (s.reserve b calls t)
  | .reserved, .look =>
    some (s.setStage t (if s.canceled then .withdrawing shuttingDown else .sending))
  -- an unbuffered channel hands a call over; here it has room for that one
  | .sending, .send =>
    if s.input.length < max 1 b.maxQueuedOperations then
      some { s.setStage t .accepted with
        input := s.input ++ [t]
        accepted := t :: s.accepted }
    else none
  | .sending, .abandon => (s.done t).map fun err => s.setStage t (.withdrawing err.error)
  | .sending, .refuse =>
    if s.canceled then some (s.setStage t (.withdrawing shuttingDown)) else none
  | .withdrawing err, .withdraw => some ((s.release calls t).setStage t (.returned (some err)))
  | .accepted, .answer =>
    if t ∈ s.completed ∨ t ∈ s.executed then some (s.setStage t (.returned none)) else none
  | .accepted, .giveUp => (s.done t).map fun err => s.setStage t (.returned (some err.error))
  | .accepted, .leave =>
    if s.canceled then some (s.setStage t (.returned (some shuttingDown))) else none
  | _, _ => none

/-! ## Dispatching -/

def failCalls (batch : List Nat) : List Work :=
  batch.flatMap fun t => [.release t, .complete t shuttingDown]

def batchWork (batch : List Nat) : List Work := batch.map .release ++ [.start batch]

def numbered (t : Nat) : BatchCall Nat := { calls t with request := t }

def work : Work → State
  | .release t => s.release calls t
  | .complete t _ => { s with completed := t :: s.completed }
  | .start batch => { s with running := s.running + 1, executed := batch ++ s.executed }

/-- The batch that is dispatched, if there is one, and what remains. -/
def choose (active : Address → Nat) (waited : Bool) : Option (List Nat × List Nat) :=
  if b.maxConcurrent = 0 ∨ s.running < b.maxConcurrent then
    match b.selectReady active (s.pending.map (numbered calls)) with
    | (selected, remaining, reason) =>
      if selected ≠ [] ∧ (reason ≠ .maxWait ∨ waited) then
        some (selected.map (·.request), remaining.map (·.request))
      else none
  else none

/-- Take a call from the channel. -/
def receive (k : Nat → State → State) : Option State :=
  match s.input with
  | t :: input => some (k t { s with input })
  | [] => none

/-- The loops of `run` and `drain`, when nothing is to be done first. -/
def advance : Phase → Turn → Option State
  | .top, .loop =>
    if s.canceled then
      some { s with phase := .counting, todo := failCalls s.pending, pending := [] }
    else some { s with phase := .receiving }
  | .receiving, .receive => s.receive fun t s => { s with pending := s.pending ++ [t] }
  | .receiving, .default =>
    if s.input = [] then some { s with phase := .checking s.pending, pending := [] } else none
  | .checking [], .check => some { s with phase := .choosing }
  | .checking (t :: rest), .check =>
    match s.done t with
    | some err =>
      some { s with phase := .checking rest, todo := [.release t, .complete t err.error] }
    | none => some { s with phase := .checking rest, pending := s.pending ++ [t] }
  | .choosing, .choose active waited =>
    match s.choose b calls active waited with
    | some (selected, remaining) =>
      some { s with
        phase := .top
        todo := batchWork selected
        pending := remaining }
    | none => some { s with phase := .waiting }
  | .waiting, .receive =>
    s.receive fun t s => { s with phase := .top, pending := s.pending ++ [t] }
  | .waiting, .finish =>
    if 0 < s.running then some { s with phase := .top, running := s.running - 1 } else none
  | .waiting, .wake => some { s with phase := .top }
  | .counting, .count =>
    some { s with phase := if s.queuedCalls > 0 then .draining else .finishing }
  | .draining, .receive =>
    s.receive fun t s => { s with phase := .counting, todo := failCalls [t] }
  | .draining, .wake => some { s with phase := .counting }
  | .finishing, .finish =>
    some (if 0 < s.running then { s with running := s.running - 1 }
      else { s with phase := .stopped })
  | _, _ => none

def dispatch (turn : Turn) : Option State :=
  match s.todo, turn with
  | work :: todo, .work => some ({ s with todo }.work calls work)
  | [], turn => s.advance b calls s.phase turn
  | _, _ => none

def step (s : State) : Action → Option State
  | .caller t move => s.submit b calls t (s.stage t) move
  | .dispatcher turn => s.dispatch b calls turn
  | .cancel t err =>
    if s.done t = none then some { s with done := Function.update s.done t (some err) } else none
  | .stop => some { s with canceled := true }

end State

/-- The batcher gets to the state, by some interleaving. -/
def Reachable {Request : Type} (b : Batcher) (calls : Nat → BatchCall Request) (s : State) : Prop :=
  ∃ actions, Machine.run (State.step b calls) .new actions = some s

end Sink.Queue
