import Sink.Data

/-!
# Failures and result conversion

`convert.go` and `failure_budget.go`: how a storage answer or an error
becomes a result message. Failure texts are bounded and made valid UTF-8
before they enter a message.
-/

namespace Sink

/-! ## Failure texts -/

def maxFailureMessageBytes : Int := 1024

def runeStart (b : UInt8) : Bool := b &&& 0xC0 != 0x80

/-- A continuation byte within the given bounds. -/
def continues (lo hi b : UInt8) : Bool := lo ≤ b && b ≤ hi

/-- The width of the well-formed rune at the head of the bytes, `0` if there
is none: the acceptance table of `unicode/utf8`. -/
def runeWidth : GoString → Nat
  | [] => 0
  | b :: rest =>
    if b < 0x80 then 1
    else if 0xC2 ≤ b && b ≤ 0xDF then
      match rest with
      | c :: _ => if continues 0x80 0xBF c then 2 else 0
      | _ => 0
    else if 0xE0 ≤ b && b ≤ 0xEF then
      let lo := if b == 0xE0 then 0xA0 else 0x80
      let hi := if b == 0xED then 0x9F else 0xBF
      match rest with
      | c :: d :: _ => if continues lo hi c && continues 0x80 0xBF d then 3 else 0
      | _ => 0
    else if 0xF0 ≤ b && b ≤ 0xF4 then
      let lo := if b == 0xF0 then 0x90 else 0x80
      let hi := if b == 0xF4 then 0x8F else 0xBF
      match rest with
      | c :: d :: e :: _ =>
        if continues lo hi c && continues 0x80 0xBF d && continues 0x80 0xBF e then 4 else 0
      | _ => 0
    else 0

/-- `strings.ToValidUTF8`, reading `pending` more bytes of the current rune;
`invalid` says that the previous byte already belonged to an invalid run. -/
def toValidUTF8From (replacement : GoString) : Nat → Bool → GoString → GoString
  | _, _, [] => []
  | pending + 1, _, b :: rest => b :: toValidUTF8From replacement pending false rest
  | 0, invalid, b :: rest =>
    match runeWidth (b :: rest) with
    | 0 => (if invalid then [] else replacement) ++ toValidUTF8From replacement 0 true rest
    | width + 1 => b :: toValidUTF8From replacement width false rest

/-- `strings.ToValidUTF8`: each run of invalid bytes becomes one replacement. -/
def toValidUTF8 (s replacement : GoString) : GoString := toValidUTF8From replacement 0 false s

/-- The loop of `boundedFailureMessage` that backs up to a rune boundary. -/
def runeBoundary (message : GoString) : Nat → Nat
  | 0 => 0
  | limit + 1 =>
    if runeStart (message.getD (limit + 1) 0) then limit + 1 else runeBoundary message limit

def boundedFailureMessage (message : GoString) (maximum : Int) : GoString :=
  if maximum ≤ 0 then []
  else if (message.length : Int) > maximum then
    let suffix := (lit "...").take (min 3 maximum.toNat)
    toValidUTF8 (message.take (runeBoundary message (maximum.toNat - suffix.length))) (lit "?")
      ++ suffix
  else toValidUTF8 message (lit "?")

/-- The per-operation text limit of one RPC's response. -/
def failureMessageLimit (operations maximum : Int) : Int :=
  min maxFailureMessageBytes (max 1 (maximum / max 1 operations - 128))

/-- Space reserved for one failure text and envelope per operation. -/
def failureResponseBytes (operations : Nat) : Int :=
  operations * (maxFailureMessageBytes + 128)

def newFailure (code : FailureCode) (err : Option GoError) (retryable : Bool) : Failure :=
  let message :=
    match err with
    | none => lit "operation failed"
    | some e => boundedFailureMessage e.message maxFailureMessageBytes
  { code
    message := if message.isEmpty then lit "operation failed" else message
    retryable }

/-! ## Storage answers -/

def storageFailureDetails (err : Option GoError) : FailureCode × Bool :=
  let (code, retryable) := errorDetails err
  match code with
  | .invalidArgument => (.invalidArgument, retryable)
  | .resourceExhausted => (.resourceExhausted, retryable)
  | .unavailable => (.unavailable, retryable)
  | .conflict => (.conflict, retryable)
  | .preconditionFailed => (.preconditionFailed, retryable)
  | .deadlineExceeded => (.deadlineExceeded, retryable)
  | .internal => (.internal, retryable)

def setWriteFailure (result : WriteResult) (code : FailureCode) (err : Option GoError)
    (retryable : Bool) : WriteResult :=
  { result with
    status := if code = .conflict ∨ code = .preconditionFailed then .preconditionFailed else .failed
    failure := some (newFailure code err retryable) }

/-- The failure of a conditional put whose condition does not hold. -/
def preconditionFailure : Failure :=
  ⟨.preconditionFailed, lit "write precondition did not match", false⟩

def applyWriteResult (result : WriteResult) (stored : Storage.WriteResult) : WriteResult :=
  match stored.status with
  | .applied => { result with status := .applied, revision := some stored.revision }
  | .preconditionFailed =>
    { result with status := .preconditionFailed, failure := some preconditionFailure }
  | .failed =>
    let (code, retryable) := storageFailureDetails stored.err
    setWriteFailure result code stored.err retryable
  | .unsupported value =>
    let err := GoError.text (lit "unsupported storage write status " ++ decimal value)
    setWriteFailure result .internal (some err) false

def setDeleteFailure (result : DeleteResult) (code : FailureCode) (err : Option GoError)
    (retryable : Bool) : DeleteResult :=
  { result with status := .failed, failure := some (newFailure code err retryable) }

def applyDeleteResult (result : DeleteResult) (stored : Storage.DeleteResult) : DeleteResult :=
  match stored.status with
  | .applied => { result with status := .applied }
  | .failed =>
    let (code, retryable) := storageFailureDetails stored.err
    setDeleteFailure result code stored.err retryable
  | .unsupported value =>
    let err := GoError.text (lit "unsupported storage delete status " ++ decimal value)
    setDeleteFailure result .internal (some err) false

end Sink
