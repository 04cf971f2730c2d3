import Sink.Capacity.PoolSafety

/-!
# Scopes

`capacity/scope.go`: a scope owns the leases of one RPC while batching and
transports hold references to it, and closes all of them with the last
reference. A scope has its own mutex, which `Release` holds while it closes
one lease after another; closing takes the pool's mutex each time, and in
between the pool serves others. So `Release` is several actions here, and
`closing` says that the scope's mutex is held and which leases are left.

Everything that happens to the pool is a list of its own actions. `via`
records through which scope a lease was made; the source keeps no such record.
-/

namespace Sink.Capacity

open Function

/-- `int64` arithmetic wraps around. -/
def int64 (n : Int) : Int := n.bmod (2 ^ 64)

structure Scope where
  owner : Nat
  refs : Nat
  leases : List Nat
  input : Nat
  output : Nat
  /-- Leases charged to the owner of another scope. -/
  outputs : Nat → Option Nat
  closing : Option (List Nat)

/-- A function returned by `Retain`; without a scope it does nothing. -/
structure Token where
  scope : Option Nat
  called : Bool
deriving Repr, DecidableEq

structure System where
  memory : State
  scopes : Nat
  scope : Nat → Scope
  tokens : Nat
  token : Nat → Token
  via : Nat → Option Nat

def System.start (pool : Pool) : System where
  memory := .start pool
  scopes := 0
  scope := fun _ => ⟨0, 0, [], 0, 0, fun _ => none, none⟩
  tokens := 0
  token := fun _ => ⟨none, false⟩
  via := fun _ => none

inductive ScopeAction where
  /-- The pool, or a lease, is used directly. -/
  | memory (action : Action)
  | newScope
  | newLease (scope : Nat)
  | retain (scope : Nat)
  /-- Call a function that `Retain` returned. -/
  | callRelease (token : Nat)
  | release (scope : Nat)
  /-- The `Release` of the last reference closes one more lease. -/
  | closeNext (scope : Nat)
  /-- `OutputFrom` up to the call of `Grow`. -/
  | outputFrom (scope : Nat) (producer : Option Nat) (bytes : Int)
  /-- `ReleaseOutputFrom`; the entry it looks up never changes, so that the
  lookup and the `Shrink` are one action. -/
  | releaseOutputFrom (scope : Nat) (producer : Option Nat) (bytes : Int)
deriving Repr, DecidableEq

namespace System

variable (s : System)

/-- Use the pool. -/
def act (actions : List Action) : Option System :=
  (Machine.run State.step s.memory actions).map fun memory => { s with memory := memory }

def setScope (sc : Nat) (f : Scope → Scope) : System :=
  { s with scope := update s.scope sc (f (s.scope sc)) }

/-- A lease was made through a scope. -/
def made (l sc : Nat) : System := { s with via := update s.via l (some sc) }

def nextLease : Nat := s.memory.pool.leases

/-- The scope exists and its mutex is free. -/
def unlocked (sc : Nat) : Bool := decide (sc < s.scopes) && (s.scope sc).closing.isNone

def newScope : Option System :=
  let owner := s.memory.pool.owners
  let l := s.nextLease
  (s.act [.newOwner, .newLease owner, .newLease owner]).map fun t =>
    (({ t with
      scopes := t.scopes + 1
      scope := update t.scope t.scopes
        ⟨owner, 1, [l, l + 1], l, l + 1, fun _ => none, none⟩ }).made l t.scopes).made
      (l + 1) t.scopes

/-- A lease of `owner` through the scope; the last release has closed it already. -/
def leaseThrough (sc owner : Nat) : Option System :=
  let l := s.nextLease
  if (s.scope sc).refs = 0 then
    (s.act [.newLease owner, .close l]).map fun t => t.made l sc
  else
    (s.act [.newLease owner]).map fun t =>
      (t.setScope sc fun scope => { scope with leases := scope.leases ++ [l] }).made l sc

def newLease (sc : Nat) : Option System :=
  if s.unlocked sc then s.leaseThrough sc (s.scope sc).owner else none

def retain (sc : Nat) : Option System :=
  if s.unlocked sc then
    let token (scope : Option Nat) (t : System) : System :=
      { t with tokens := t.tokens + 1, token := update t.token t.tokens ⟨scope, false⟩ }
    if (s.scope sc).refs = 0 then some (token none s)
    else some (token (some sc) (s.setScope sc fun scope => { scope with refs := scope.refs + 1 }))
  else none

/-- `Release` up to the first lease it closes. -/
def release (sc : Nat) : Option System :=
  if s.unlocked sc then
    if (s.scope sc).refs = 0 then some s
    else some (s.setScope sc fun scope =>
      { scope with
        refs := scope.refs - 1
        closing := if scope.refs - 1 = 0 then some scope.leases else none })
  else none

def callRelease (t : Nat) : Option System :=
  if t < s.tokens then
    match s.token t with
    | ⟨some sc, false⟩ =>
      (s.release sc).map fun s' =>
        { s' with token := update s'.token t ⟨some sc, true⟩ }
    | _ => some s
  else none

def closeNext (sc : Nat) : Option System :=
  if sc < s.scopes then
    match (s.scope sc).closing with
    | none => none
    | some [] => some (s.setScope sc fun scope => { scope with leases := [], closing := none })
    | some (l :: rest) =>
      (s.act [.close l]).map fun t =>
        t.setScope sc fun scope => { scope with closing := some rest }
  else none

/-- The owner that `producer` is charged for, if it is not the scope's own. -/
def foreignOwner (sc : Nat) (producer : Option Nat) : Option Nat :=
  match producer with
  | none => none
  | some pr => if (s.scope pr).owner = (s.scope sc).owner then none else some (s.scope pr).owner

def producerExists (producer : Option Nat) : Bool :=
  match producer with
  | none => true
  | some pr => decide (pr < s.scopes)

variable (sc : Nat) (producer : Option Nat) (bytes : Int)

def outputFrom : Option System :=
  let grow (l : Nat) (t : System) : Option System := t.act [.grow l (int64 (2 * bytes)) .response]
  if sc < s.scopes ∧ s.producerExists producer then
    match s.foreignOwner sc producer with
    | none => grow (s.scope sc).output s
    | some owner =>
      if s.unlocked sc then
        match (s.scope sc).outputs owner with
        | some l => grow l s
        | none =>
          let l := s.nextLease
          (s.leaseThrough sc owner).bind fun t =>
            grow l (t.setScope sc fun scope =>
              { scope with outputs := update scope.outputs owner (some l) })
      else none
  else none

def releaseOutputFrom : Option System :=
  if s.unlocked sc ∧ s.producerExists producer then
    if bytes ≤ 0 then some s
    else
      let lease :=
        match s.foreignOwner sc producer with
        | none => some (s.scope sc).output
        | some owner => (s.scope sc).outputs owner
      match lease with
      | none => some s
      | some l => s.act [.shrink l (int64 (2 * bytes))]
  else none

def step (s : System) : ScopeAction → Option System
  | .memory action => s.act [action]
  | .newScope => s.newScope
  | .newLease sc => s.newLease sc
  | .retain sc => s.retain sc
  | .callRelease t => s.callRelease t
  | .release sc => s.release sc
  | .closeNext sc => s.closeNext sc
  | .outputFrom sc producer bytes => s.outputFrom sc producer bytes
  | .releaseOutputFrom sc producer bytes => s.releaseOutputFrom sc producer bytes

end System

end Sink.Capacity
