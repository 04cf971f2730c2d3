import Sink.Errors

/-!
# Documents, storage contract and result messages

The types of `internal/storage/storage.go` and the messages of the public
protocol that the write path reads and builds. A status the code does not
know (`uint8` values outside the declared constants, the zero value
included) is `unsupported n`.
-/

namespace Sink

inductive DocumentEncoding where
  | unspecified
  | json
  | bson
deriving Repr, DecidableEq

structure Document where
  encoding : DocumentEncoding
  payload : List UInt8
deriving Repr, DecidableEq

/-- `len(document.Payload)`. -/
def Document.size (d : Document) : Int := d.payload.length

theorem Document.size_nonneg (d : Document) : 0 ≤ d.size := Int.natCast_nonneg _

/-- The zero value a failed read carries. -/
def Document.empty : Document := ⟨.unspecified, []⟩

/-- Revision bytes; empty means the record has no revision. -/
abbrev Revision := List UInt8

/-- A complete canonical record URI. It is the record identity of the
service, the routing key of the memory store and the key of a mutation. -/
structure Address where
  uri : GoString
deriving Repr, DecidableEq

namespace Storage

inductive ReadStatus where
  | found
  | notFound
  | failed
  | unsupported (value : Nat)
deriving Repr, DecidableEq

structure ReadResult where
  status : ReadStatus
  document : Document
  revision : Revision
  err : Option GoError
deriving Repr, DecidableEq

/-- What a put or a commit demands of the stored record. -/
inductive Precondition where
  | none
  | recordExists
  | recordNotExists
  | revisionMatches (revision : Revision)
  | revisionAbsent
deriving Repr, DecidableEq

structure WriteOperation where
  address : Address
  document : Document
  precondition : Precondition
deriving Repr, DecidableEq

inductive WriteStatus where
  | applied
  | preconditionFailed
  | failed
  | unsupported (value : Nat)
deriving Repr, DecidableEq

structure WriteResult where
  status : WriteStatus
  revision : Revision
  err : Option GoError
deriving Repr, DecidableEq

/-- A write the storage answered, or the service decided, as failed. -/
def WriteResult.ofError (err : GoError) : WriteResult := ⟨.failed, [], some err⟩

inductive DeleteStatus where
  | applied
  | failed
  | unsupported (value : Nat)
deriving Repr, DecidableEq

structure DeleteResult where
  status : DeleteStatus
  err : Option GoError
deriving Repr, DecidableEq

end Storage

/-! ## Result messages -/

inductive FailureCode where
  | unspecified
  | invalidArgument
  | preconditionFailed
  | notFound
  | conflict
  | resourceExhausted
  | unavailable
  | deadlineExceeded
  | internal
deriving Repr, DecidableEq

structure Failure where
  code : FailureCode
  message : GoString
  retryable : Bool
deriving Repr, DecidableEq

inductive ReadStatus where
  | unspecified
  | found
  | notFound
  | failed
deriving Repr, DecidableEq

/-- `sink.ReadResult`; absent messages are `none`. -/
structure ReadResult where
  operationIndex : Nat
  status : ReadStatus
  document : Option Document
  revision : Option Revision
  failure : Option Failure
deriving Repr, DecidableEq

inductive WriteStatus where
  | unspecified
  | accepted
  | applied
  | preconditionFailed
  | failed
deriving Repr, DecidableEq

/-- `sink.WriteResult`; absent messages are `none`. -/
structure WriteResult where
  operationIndex : Nat
  status : WriteStatus
  revision : Option Revision
  failure : Option Failure
  document : Option Document
deriving Repr, DecidableEq

/-- The result `Server.write` allocates for operation `index`. -/
def WriteResult.new (index : Nat) : WriteResult := ⟨index, .unspecified, none, none, none⟩

/-- The results of one execution, by operation index. -/
abbrev Results := Nat → WriteResult

inductive DeleteStatus where
  | unspecified
  | accepted
  | applied
  | failed
deriving Repr, DecidableEq

structure DeleteResult where
  operationIndex : Nat
  status : DeleteStatus
  failure : Option Failure
deriving Repr, DecidableEq

inductive CompletionMode where
  | unspecified
  | waitUntilApplied
  | returnAfterAccepted
  | waitUntilVisible
deriving Repr, DecidableEq

end Sink
