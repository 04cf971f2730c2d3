import Sink.Lib.Exec
import Sink.MemoryStore
import Sink.Reservation
import Sink.Wire
import Sink.WriteGroup

/-!
# What an execution asks of its environment

A synchronous execution of the server is an `Interact.Exec` program: it
computes on its own memory and calls out for everything else. A call is
answered by the storage, the request's context, the admission pool or the
process memory pool, all of which other requests use at the same time, so
nothing is assumed about an answer here.

`complete` is the one call that flows the other way: it hands final results
to the waiting callers.
-/

namespace Sink

open Interact

structure AdmissionRequest where
  encodedBytes : Int
  inputBytes : Int
  resultBytes : Int
  sharedInput : Bool
  wait : Bool
  publish : Bool
deriving Repr, DecidableEq

inductive Call where
  /-- `contextError(ctx)`. -/
  | contextErr
  /-- Evaluate the operations of a record: whether the context is done when
  each of them, by index, is reached. -/
  | evaluate (address : Address)
  /-- `storage.Read`; charging the budgets changes their cells. -/
  | read (operations : List ReadOperation) (cells : Nat → BudgetCell)
  /-- `storage.Write`. -/
  | write (operations : List Storage.WriteOperation) (waitUntilVisible : Bool)
  /-- `storage.Delete`. -/
  | delete (addresses : List Address) (waitUntilVisible : Bool)
  /-- Enter and leave the admission pool's critical section. -/
  | lockPool
  | unlockPool (pool : AdmissionPool)
  /-- The execution's lease on the process memory pool. -/
  | leaseBytes
  | leaseGrow (bytes : Int)
  | leaseShrink (bytes : Int)
  /-- Response memory of one caller's scope. -/
  | output (owner : Nat) (bytes : Int)
  | releaseOutput (owner : Nat) (bytes : Int)
  /-- Publish final results, by operation index. -/
  | complete (results : List (Nat × WriteResult))
  | admitRequest (request : AdmissionRequest)
  /-- Memory for the encoded mutations of an asynchronous request. -/
  | publishGrow (bytes : Int)
  /-- Hand the mutations to the asynchronous publisher. -/
  | publish (mutations : List Mutation)

/-- One result of the asynchronous publisher. -/
inductive PublishResult where
  | accepted
  | failed (err : Option GoError)
  | unsupported
deriving Repr, DecidableEq

@[reducible] def Reply : Call → Type
  | .contextErr => Option ContextErr
  | .evaluate _ => Nat → Bool
  | .read _ _ => Fallible (List Storage.ReadResult) × (Nat → BudgetCell)
  | .write _ _ => Fallible (List Storage.WriteResult)
  | .delete _ _ => Fallible (List Storage.DeleteResult)
  | .lockPool => AdmissionPool
  | .unlockPool _ => Unit
  | .leaseBytes => Int
  | .leaseGrow _ => Option GoError
  | .leaseShrink _ => Unit
  | .output _ _ => Option GoError
  | .releaseOutput _ _ => Unit
  | .complete _ => Unit
  | .admitRequest _ => Option GoError
  | .publishGrow _ => Option GoError
  | .publish _ => Fallible (List PublishResult)

/-- The log of an execution, newest event first. -/
abbrev Log := List (Event Call Reply)

end Sink
