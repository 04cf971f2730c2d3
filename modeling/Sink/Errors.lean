import Mathlib.Algebra.Order.Ring.Int
import Mathlib.Data.List.Basic

/-!
# Error values

Go strings are byte strings; `lit` embeds the literals of the source.

`GoError` keeps of an `error` value what the modelled code can observe:
its text, the sentinel values `errors.Is` looks for, the `OperationError`
classification of the storage layer (`errorDetails`), the gRPC status code
(`statusCode`) and the retry flag of a worker's `ApplyError`. Each query
walks the `Unwrap` chain, as `errors.Is` and `errors.As` do.
-/

namespace Sink

/-- A Go string: arbitrary bytes, not necessarily valid UTF-8. -/
abbrev GoString := List UInt8

/-- The bytes of a source literal. -/
def lit (s : String) : GoString := s.toUTF8.data.toList

/-- A decimal rendering, as `%d` prints it. -/
def decimal (n : Int) : GoString := lit (toString n)

/-- Named error values that the code compares with `errors.Is`. -/
inductive Sentinel where
  | readWorkingSetFull
  | contextCanceled
  | contextDeadlineExceeded
  | invalidProgram
  | invalidIncoming
  | invalidCurrent
  | invalidResult
  | execution
  | executionDeadline
  | executionExhausted
deriving Repr, DecidableEq

namespace Sentinel

/-- The text of a named error value. -/
def text : Sentinel → GoString
  | .readWorkingSetFull => lit "read working set is full"
  | .contextCanceled => lit "context canceled"
  | .contextDeadlineExceeded => lit "context deadline exceeded"
  | .invalidProgram => lit "invalid Lua merge program"
  | .invalidIncoming => lit "invalid incoming merge document"
  | .invalidCurrent => lit "invalid current merge document"
  | .invalidResult => lit "invalid Lua merge result"
  | .execution => lit "lua merge execution failed"
  | .executionDeadline => lit "lua merge execution deadline exceeded"
  | .executionExhausted => lit "lua merge execution resource limit exceeded"

end Sentinel

inductive ErrorCode where
  | internal
  | invalidArgument
  | resourceExhausted
  | unavailable
  | deadlineExceeded
  | conflict
  | preconditionFailed
deriving Repr, DecidableEq

/-- The gRPC status codes the code constructs or compares with. -/
inductive GrpcCode where
  | ok
  | canceled
  | unknown
  | invalidArgument
  | deadlineExceeded
  | resourceExhausted
  | failedPrecondition
  | internal
  | unavailable
deriving Repr, DecidableEq

/-- `codes.Code.String()`. -/
def GrpcCode.name : GrpcCode → String
  | .ok => "OK"
  | .canceled => "Canceled"
  | .unknown => "Unknown"
  | .invalidArgument => "InvalidArgument"
  | .deadlineExceeded => "DeadlineExceeded"
  | .resourceExhausted => "ResourceExhausted"
  | .failedPrecondition => "FailedPrecondition"
  | .internal => "Internal"
  | .unavailable => "Unavailable"

/-- An `error` value. -/
inductive GoError where
  /-- `errors.New`, or `fmt.Errorf` without `%w`. -/
  | text (message : GoString)
  | sentinel (value : Sentinel)
  /-- `fmt.Errorf` with `%w`: the whole text and the wrapped error. -/
  | wrapped (message : GoString) (cause : GoError)
  /-- `*storage.OperationError` with a cause. -/
  | operation (code : ErrorCode) (retryable : Bool) (cause : GoError)
  /-- `*storage.OperationError` whose cause is nil. -/
  | bareOperation (code : ErrorCode) (retryable : Bool)
  /-- A gRPC status error. -/
  | status (code : GrpcCode) (message : GoString)
  /-- `*worker.ApplyError`. -/
  | apply (operation : GoString) (retryable : Bool) (cause : GoError)
deriving Repr, DecidableEq

/-- What a function returns next to an `error`. -/
abbrev Fallible := Except GoError

/-- `return nil, errors.New(reason)`. -/
abbrev refuse {α : Type} (reason : String) : Fallible α := .error (.text (lit reason))

variable {ε α β : Type}

/-- What follows a step is only reached without an error. -/
theorem bind_ok {x : Except ε α} {f : α → Except ε β} {b : β}
    (h : (x >>= f) = .ok b) : ∃ a, x = .ok a ∧ f a = .ok b := by
  cases x with
  | error err => cases h
  | ok a => exact ⟨a, rfl, h⟩

/-- The same, where the first error is given a code. -/
theorem coded_ok {x : Except ε α} {code : ε → ε} {f : α → Except ε β} {b : β}
    (h : (x.mapError code >>= f) = .ok b) : ∃ a, x = .ok a ∧ f a = .ok b := by
  cases x with
  | error err => cases h
  | ok a => exact ⟨a, rfl, h⟩

@[simp] theorem ok_bind (a : α) (f : α → Except ε β) :
    (Except.ok a >>= f) = f a := rfl

@[simp] theorem error_bind (err : ε) (f : α → Except ε β) :
    (Except.error err >>= f) = .error err := rfl

namespace GoError

/-- `err.Error()`. -/
def message : GoError → GoString
  | .text m => m
  | .sentinel s => s.text
  | .wrapped m _ => m
  | .operation _ _ cause => cause.message
  | .bareOperation _ _ => lit "storage operation failed"
  | .status code m => lit ("rpc error: code = " ++ code.name ++ " desc = ") ++ m
  | .apply op _ cause => op ++ lit ": " ++ cause.message

/-- `errors.Is(err, target)`. -/
def isSentinel (target : Sentinel) : GoError → Bool
  | .sentinel s => s == target
  | .wrapped _ cause => cause.isSentinel target
  | .operation _ _ cause => cause.isSentinel target
  | .apply _ _ cause => cause.isSentinel target
  | _ => false

/-- `storage.ErrorDetails`: the first `OperationError` of the chain. -/
def errorDetails : GoError → ErrorCode × Bool
  | .operation code retryable _ => (code, retryable)
  | .bareOperation code retryable => (code, retryable)
  | .wrapped _ cause => cause.errorDetails
  | .apply _ _ cause => cause.errorDetails
  | _ => (.internal, false)

/-- `status.Code(err)` of a non-nil error. -/
def statusCode : GoError → GrpcCode
  | .status code _ => code
  | .wrapped _ cause => cause.statusCode
  | .apply _ _ cause => cause.statusCode
  | .operation _ _ cause => cause.statusCode
  | _ => .unknown

/-- `errors.As(err, *OperationError)`. -/
def asOperation? : GoError → Option GoError
  | .operation code retryable cause => some (.operation code retryable cause)
  | .bareOperation code retryable => some (.bareOperation code retryable)
  | .wrapped _ cause => cause.asOperation?
  | .apply _ _ cause => cause.asOperation?
  | _ => none

end GoError

/-- `storage.ErrorDetails` of a possibly nil error. -/
def errorDetails (err : Option GoError) : ErrorCode × Bool :=
  match err with
  | none => (.internal, false)
  | some e => e.errorDetails

def resourceExhaustedError (cause : GoError) : GoError :=
  .operation .resourceExhausted true cause

def backendError (cause : Option GoError) : GoError :=
  match cause with
  | none => .bareOperation .unavailable true
  | some e =>
    match e.asOperation? with
    | some op => op
    | none =>
      if e.isSentinel .contextDeadlineExceeded then .operation .deadlineExceeded true e
      else if e.isSentinel .contextCanceled then .operation .internal false e
      else .operation .unavailable true e

/-! ## Contexts -/

/-- What `ctx.Err()` can be once a context is done. -/
inductive ContextErr where
  | canceled
  | deadlineExceeded
deriving Repr, DecidableEq

namespace ContextErr

/-- The context's own error value. -/
def raw : ContextErr → GoError
  | .canceled => .sentinel .contextCanceled
  | .deadlineExceeded => .sentinel .contextDeadlineExceeded

/-- `status.FromContextError(err).Err()`, as `contextError` returns it. -/
def error : ContextErr → GoError
  | .canceled => .status .canceled Sentinel.contextCanceled.text
  | .deadlineExceeded => .status .deadlineExceeded Sentinel.contextDeadlineExceeded.text

theorem error_statusCode_ne_resourceExhausted (e : ContextErr) :
    e.error.statusCode ≠ .resourceExhausted := by
  cases e <;> simp [error, GoError.statusCode]

end ContextErr

theorem map_ok {α β : Type} {x : Fallible α} {f : α → β} {b : β}
    (h : x.map f = .ok b) : ∃ a, x = .ok a ∧ f a = b := by
  cases x with
  | error err => cases h
  | ok a => exact ⟨a, rfl, Except.ok.inj h⟩

end Sink
