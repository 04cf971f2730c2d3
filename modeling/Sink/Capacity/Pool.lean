import Sink.Errors

/-!
# The process memory pool

`capacity/pool.go`: a pool of bytes with ordinary capacity `normal` and a
reserve up to `total`, owners (one per operation), leases (one per retained
buffer) and the queue of allocations that wait.

Pointers are numbers: the pool holds the tables of its owners and leases, and
a waiter is named by the `Grow` call it belongs to. A critical section of the
pool's mutex is one function here; `Grow` has two of them, `enter` and
`resume`, with a wait in between. Metrics are left out.
-/

namespace Sink.Capacity

open Function

/-- `Phase` is a string type; only two of its values are valid. -/
inductive Phase where
  | request
  | response
  | other (name : GoString)
deriving Repr, DecidableEq

structure Options where
  bytes : Int
  burstPercent : Int
  waitTimeout : Int
  maxWaiters : Int
deriving Repr, DecidableEq

structure Lease where
  owner : Nat
  bytes : Int
  closed : Bool
  isOpaque : Bool
  /-- `growMu` is held. -/
  growing : Bool
deriving Repr, DecidableEq

structure Waiter where
  call : Nat
  lease : Nat
  bytes : Int
  phase : Phase
deriving Repr, DecidableEq

structure Pool where
  total : Int
  normal : Int
  used : Int
  opaqueBytes : Int
  burstOwner : Option Nat
  waiters : List Waiter
  maxWaiters : Int
  /-- The owners made so far, and their bytes. -/
  owners : Nat
  ownerBytes : Nat → Int
  /-- The leases made so far. -/
  leases : Nat
  lease : Nat → Lease
  /-- `granted` and a closed `ready` channel of the waiter of a call. -/
  granted : Nat → Bool
  ready : Nat → Bool

def new (opts : Options) : Fallible Pool :=
  if opts.bytes < 1024 || opts.burstPercent < 1 || opts.burstPercent > 99 ||
      opts.waitTimeout ≤ 0 then
    .error (.text (lit ("memory capacity requires at least 1KiB, " ++
      "burst_percent between 1 and 99, and a positive wait timeout")))
  else
    let burst := opts.bytes / 100 * opts.burstPercent
    let maxWaiters := if opts.maxWaiters = 0 then 1024 else opts.maxWaiters
    if maxWaiters < 0 then refuse "memory max_waiters must be positive"
    else .ok
      { total := opts.bytes
        normal := opts.bytes - burst
        used := 0
        opaqueBytes := 0
        burstOwner := none
        waiters := []
        maxWaiters := maxWaiters
        owners := 0
        ownerBytes := fun _ => 0
        leases := 0
        lease := fun _ => ⟨0, 0, false, false, false⟩
        granted := fun _ => false
        ready := fun _ => false }

def errBusy : GoError :=
  .status .resourceExhausted (lit "process memory capacity is occupied")

namespace Pool

variable (p : Pool)

def newOwner : Pool :=
  { p with owners := p.owners + 1, ownerBytes := update p.ownerBytes p.owners 0 }

def newLease (owner : Nat) : Pool :=
  { p with
    leases := p.leases + 1
    lease := update p.lease p.leases ⟨owner, 0, false, false, false⟩ }

def setLease (l : Nat) (f : Lease → Lease) : Pool :=
  { p with lease := update p.lease l (f (p.lease l)) }

def ownerOf (l : Nat) : Nat := (p.lease l).owner

/-- Take the waiter out of the queue. -/
def remove (call : Nat) : Pool :=
  { p with waiters := p.waiters.eraseP fun w => w.call == call }

/-- Add bytes to a lease, its owner and the pool, or take them back. -/
def charge (l : Nat) (bytes : Int) : Pool :=
  { p with
    used := p.used + bytes
    opaqueBytes := if (p.lease l).isOpaque then p.opaqueBytes + bytes else p.opaqueBytes
    lease := update p.lease l { p.lease l with bytes := (p.lease l).bytes + bytes }
    ownerBytes := update p.ownerBytes (p.ownerOf l) (p.ownerBytes (p.ownerOf l) + bytes) }

/-! ## Dispatch -/

/-- How far the pool may fill up for an allocation of this phase and owner:
only one owner may borrow the reserve. -/
def limit (phase : Phase) (owner : Nat) : Int :=
  if phase = .response ∧ (p.burstOwner = none ∨ p.burstOwner = some owner) then p.total
  else p.normal

/-- The allocation of the waiter does not fit now. -/
def blocked (w : Waiter) : Bool := decide (w.bytes > p.limit w.phase (p.ownerOf w.lease) - p.used)

def grant (w : Waiter) : Pool :=
  let burst := if p.used + w.bytes > p.normal then some (p.ownerOf w.lease) else p.burstOwner
  { p.charge w.lease w.bytes with
    burstOwner := burst
    granted := update p.granted w.call true
    ready := update p.ready w.call true }

/-- One pass of `dispatch` over the queue for waiters of `phase`: who stays in
the queue, and the pool. -/
def pass (phase : Phase) : List Waiter → Pool → List Waiter × Pool
  | [], p => ([], p)
  | w :: ws, p =>
    if w.phase = phase ∧ !p.blocked w then pass phase ws (p.grant w)
    else
      let rest := pass phase ws p
      (w :: rest.1, rest.2)

/-- Grant what fits, responses first; while a response waits, no request is
granted. -/
def dispatch : Pool :=
  let responses := pass .response p.waiters p
  let p := { responses.2 with waiters := responses.1 }
  if p.waiters.any fun w => w.phase == .response then p
  else
    let requests := pass .request p.waiters p
    { requests.2 with waiters := requests.1 }

/-! ## Releasing -/

def releaseLocked (l : Nat) (bytes : Int) : Pool :=
  let p' := p.charge l (-bytes)
  if p'.used ≤ p'.normal ∨
      (p'.burstOwner = some (p'.ownerOf l) ∧ p'.ownerBytes (p'.ownerOf l) = 0) then
    { p' with burstOwner := none }
  else p'

def shrink (l : Nat) (bytes : Int) : Pool :=
  if (p.lease l).closed || bytes ≤ 0 then p
  else (p.releaseLocked l (min bytes (p.lease l).bytes)).dispatch

/-- Wake the waiters of a lease without granting them. -/
def abandon (l : Nat) : Pool :=
  { p with
    waiters := p.waiters.filter fun w => w.lease != l
    ready := fun call => p.ready call || p.waiters.any fun w => w.lease == l && w.call == call }

def close (l : Nat) : Pool :=
  if (p.lease l).closed then p
  else
    let p := p.setLease l fun lease => { lease with closed := true }
    ((p.releaseLocked l (p.lease l).bytes).abandon l).dispatch

def markOpaque (l : Nat) : Pool :=
  if (p.lease l).isOpaque then p
  else
    { p.setLease l fun lease => { lease with isOpaque := true } with
      opaqueBytes := p.opaqueBytes + (p.lease l).bytes }

end Pool

/-! ## Growing -/

/-- Where a call of `Grow` is: before it holds `growMu`, in the queue, or
returned with an error or nil. -/
inductive Progress where
  | entering
  | waiting
  | done (err : Option GoError)
deriving Repr, DecidableEq

structure GrowCall where
  lease : Nat
  bytes : Int
  phase : Phase
  progress : Progress
deriving Repr, DecidableEq

namespace Pool

variable (p : Pool)

/-- What one owner may ever hold in this phase. -/
def ceiling : Phase → Int
  | .request => p.normal
  | _ => p.total

variable (call : Nat) (c : GrowCall)

/-- The allocation joins the queue and is dispatched. -/
def enqueue : Pool :=
  dispatch
    { p with
      waiters := p.waiters ++ [⟨call, c.lease, c.bytes, c.phase⟩]
      granted := update p.granted call false
      ready := update p.ready call false }

/-- `Grow` up to the wait. `ctxErr` is the context's error at the entry. -/
def enter (ctxErr : Option ContextErr) : Pool × Progress :=
  if c.bytes < 0 ∨ (c.phase ≠ .request ∧ c.phase ≠ .response) then
    (p, .done (some (.text (lit "invalid memory capacity acquisition"))))
  else
    match ctxErr with
    | some err => (p, .done (some err.error))
    | none =>
      if (p.lease c.lease).closed then
        (p, .done (some (.text (lit "memory lease is closed"))))
      else if c.bytes > p.ceiling c.phase - p.ownerBytes (p.ownerOf c.lease) then
        (p, .done (some (.status .resourceExhausted
          (lit "allocation exceeds process memory capacity"))))
      else if c.bytes = 0 then (p, .done none)
      else
        let p := p.enqueue call c
        if p.granted call then (p, .done none)
        else if c.phase = .request ∨ (p.waiters.length : Int) > p.maxWaiters then
          (p.remove call, .done (some errBusy))
        else (p, .waiting)

/-- `Grow` after the wait. `waitDone` says whether the wait's own context is
done, `ctxErr` is the error of the caller's. -/
def resume (waitDone : Bool) (ctxErr : Option ContextErr) :
    Pool × Option GoError :=
  let closedErr := GoError.status .canceled (lit "memory lease closed while waiting")
  if (p.lease c.lease).closed then (p, some closedErr)
  else if waitDone then
    let p :=
      if p.granted call then p.releaseLocked c.lease (min c.bytes (p.lease c.lease).bytes)
      else p.remove call
    let err :=
      match ctxErr with
      | some err => err.error
      | none => .status .resourceExhausted
          (lit "timed out waiting for process memory capacity")
    (p.dispatch, some err)
  else if !p.granted call then ((p.remove call).dispatch, some closedErr)
  else (p, none)

end Pool

/-! ## The pool and its callers -/

/-- A pool with all calls of `Grow` so far. -/
structure State where
  pool : Pool
  calls : Nat
  call : Nat → GrowCall

def State.start (pool : Pool) : State := ⟨pool, 0, fun _ => ⟨0, 0, .request, .entering⟩⟩

inductive Action where
  | newOwner
  | newLease (owner : Nat)
  /-- Call `Grow`. -/
  | grow (lease : Nat) (bytes : Int) (phase : Phase)
  | enter (call : Nat) (ctxErr : Option ContextErr)
  | resume (call : Nat) (waitDone : Bool) (ctxErr : Option ContextErr)
  | shrink (lease : Nat) (bytes : Int)
  | close (lease : Nat)
  | markOpaque (lease : Nat)
deriving Repr, DecidableEq

namespace State

/-- The call moves on; `growMu` is held while it waits. -/
def settle (s : State) (call : Nat) (pool : Pool) (progress : Progress) : State :=
  let c := s.call call
  { s with
    pool := pool.setLease c.lease fun lease => { lease with growing := progress == .waiting }
    call := update s.call call { c with progress := progress } }

/-- One critical section. A call enters when `growMu` of its lease is free,
and stops waiting when its `ready` channel is closed or its wait is done. -/
def step (s : State) : Action → Option State
  | .newOwner => some { s with pool := s.pool.newOwner }
  | .newLease owner =>
    if owner < s.pool.owners then some { s with pool := s.pool.newLease owner } else none
  | .grow l bytes phase =>
    if l < s.pool.leases then
      some { s with
        calls := s.calls + 1
        call := update s.call s.calls ⟨l, bytes, phase, .entering⟩ }
    else none
  | .enter call ctxErr =>
    let c := s.call call
    if call < s.calls ∧ c.progress = .entering ∧ !(s.pool.lease c.lease).growing then
      let result := s.pool.enter call c ctxErr
      some (s.settle call result.1 result.2)
    else none
  | .resume call waitDone ctxErr =>
    let c := s.call call
    if call < s.calls ∧ c.progress = .waiting ∧ (s.pool.ready call || waitDone) then
      let result := s.pool.resume call c waitDone ctxErr
      some (s.settle call result.1 (.done result.2))
    else none
  | .shrink l bytes =>
    if l < s.pool.leases then some { s with pool := s.pool.shrink l bytes } else none
  | .close l => if l < s.pool.leases then some { s with pool := s.pool.close l } else none
  | .markOpaque l =>
    if l < s.pool.leases then some { s with pool := s.pool.markOpaque l } else none

end State

end Sink.Capacity
