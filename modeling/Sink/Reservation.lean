import Sink.Data

/-!
# The admission pool and its resizable reservations

`admission.go` and `reservation.go`, without metrics and deadlines. The
pool is shared by every request of the process; one execution owns its
reservation. A reservation may return bytes during a storage call and take
them back later, but never beyond what it was admitted with.
-/

namespace Sink

/-- A queued request; `ready` is the buffered wake-up signal of its channel. -/
structure AdmissionWaiter where
  encodedBytes : Int
  inputBytes : Int
  scan : Bool
  direct : Bool
  ready : Bool
deriving Repr, DecidableEq

structure AdmissionPool where
  maxInFlightRequests : Int
  maxInFlightBytes : Int
  inFlightRequests : Int
  inFlightBytes : Int
  maxScanRequests : Int
  maxScanBytes : Int
  scanRequests : Int
  scanBytes : Int
  waiters : List AdmissionWaiter
deriving Repr, DecidableEq

namespace AdmissionPool

/-- No execution slot is left for the request; global bytes are not counted. -/
def admissionSlotsFull (pool : AdmissionPool) (request : AdmissionWaiter) : Bool :=
  decide (pool.inFlightRequests ≥ pool.maxInFlightRequests) ||
    (request.scan && (decide (pool.scanRequests ≥ pool.maxScanRequests) ||
      decide (request.encodedBytes > pool.maxScanBytes - pool.scanBytes)))

/-- Signal the oldest waiter with a free slot, if its bytes fit. -/
def wakeWaiters (pool : AdmissionPool) : List AdmissionWaiter → List AdmissionWaiter
  | [] => []
  | w :: ws =>
    if pool.admissionSlotsFull w then w :: pool.wakeWaiters ws
    else if w.encodedBytes ≤ pool.maxInFlightBytes - pool.inFlightBytes then
      { w with ready := true } :: ws
    else w :: ws

def wakeAdmissionWaiter (pool : AdmissionPool) : AdmissionPool :=
  { pool with waiters := pool.wakeWaiters pool.waiters }

end AdmissionPool

/-- The part of an admission that an execution may shrink and restore. -/
structure AdmissionReservation where
  bytes : Int
  maximum : Int
  released : Bool
deriving Repr, DecidableEq

namespace AdmissionReservation

/-- What admission grants for a request of the given size. -/
def granted (encodedBytes : Int) : AdmissionReservation := ⟨encodedBytes, encodedBytes, false⟩

/-- Growth is refused when the bytes are not free or an older waiter with a
free slot is accumulating them. -/
def growthRefused (pool : AdmissionPool) (delta : Int) : Bool :=
  decide (delta > pool.maxInFlightBytes - pool.inFlightBytes) ||
    pool.waiters.any fun w => !pool.admissionSlotsFull w

/-- `admissionReservation.resize` without a managed lease, under the pool's
lock: the error (if any), the reservation and the pool afterwards. -/
def resize (r : AdmissionReservation) (pool : AdmissionPool) (bytes : Int) :
    Option GoError × AdmissionReservation × AdmissionPool :=
  if r.released = true ∨ bytes < 0 ∨ bytes > r.maximum then
    (some (.text (lit "invalid execution reservation resize")), r, pool)
  else
    let delta := bytes - r.bytes
    if delta = 0 then (none, r, pool)
    else if delta > 0 ∧ growthRefused pool delta = true then
      (some (.status .resourceExhausted
        (lit "Sink execution capacity cannot restore the write working set")), r, pool)
    else
      let pool := { pool with inFlightBytes := pool.inFlightBytes + delta }
      (none, { r with bytes }, if delta < 0 then pool.wakeAdmissionWaiter else pool)

/-- A resize within the admitted maximum that does not grow never fails. -/
theorem resize_shrink {r : AdmissionReservation} {pool : AdmissionPool} {bytes : Int}
    (hreleased : r.released = false) (h0 : 0 ≤ bytes) (hle : bytes ≤ r.bytes)
    (hmax : r.bytes ≤ r.maximum) :
    (r.resize pool bytes).1 = none ∧ (r.resize pool bytes).2.1 = { r with bytes } := by
  have hvalid : ¬ (r.released = true ∨ bytes < 0 ∨ bytes > r.maximum) := by
    rintro (h | h | h)
    · rw [hreleased] at h; cases h
    · omega
    · omega
  unfold resize
  simp only [if_neg hvalid]
  by_cases hd : bytes - r.bytes = 0
  · have hb : bytes = r.bytes := by omega
    simp [hb]
  have hg : ¬ (bytes - r.bytes > 0 ∧ growthRefused pool (bytes - r.bytes) = true) := by
    rintro ⟨hpos, -⟩; omega
  simp only [if_neg hd, if_neg hg, and_self]

/-- A resize keeps the admitted maximum and never releases; when it succeeds
the reservation holds exactly the bytes asked for. -/
theorem resize_reservation (r : AdmissionReservation) (pool : AdmissionPool) (bytes : Int) :
    (r.resize pool bytes).2.1.maximum = r.maximum ∧
      (r.resize pool bytes).2.1.released = r.released ∧
      ((r.resize pool bytes).1 = none → (r.resize pool bytes).2.1.bytes = bytes) := by
  unfold resize
  split
  · simp
  dsimp only
  split
  · exact ⟨rfl, rfl, fun _ => by simp only; omega⟩
  · split <;> simp

end AdmissionReservation

end Sink
