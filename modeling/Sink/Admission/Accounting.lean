import Sink.Admission.Moves
import Sink.Lib.Ledger

/-!
# Limits, accounting and fairness of the pool

The counters of a pool are written in four places, and the queue's in two
more. Here they are compared with what they stand for: the admitted calls, at
the current size of their reservations, and the direct calls in the queue. The
counters are four and two numbers, so each comparison is one equation of
tuples, kept by every move.
-/

namespace Sink.Admission

/-! ## What the counters stand for -/

/-- Requests, bytes, scans and scan bytes of a request, `sign` times. -/
def Request.usage (r : Request) (sign bytes : Int) : Int × Int × Int × Int :=
  (sign, bytes, if r.scan then sign else 0, if r.scan then sign * r.encodedBytes else 0)

/-- An admitted call uses the pool with the current size of its reservation. -/
def Phase.usage (r : Request) : Phase → Int × Int × Int × Int
  | .admitted bytes => r.usage 1 bytes
  | _ => 0

def Call.usage (c : Call) : Int × Int × Int × Int := c.phase.usage c.request

/-- A direct call counts in the queue. -/
def Request.queueUsage (r : Request) : Int × Int :=
  if r.direct then (1, r.inputBytes) else 0

namespace State

/-- The counters of the execution. -/
def usage (s : State) : Int × Int × Int × Int :=
  (s.inFlightRequests, s.inFlightBytes, s.scanRequests, s.scanBytes)

/-- The counters of the direct queue. -/
def queueUsage (s : State) : Int × Int := (s.queuedRequests, s.queuedBytes)

def admittedUsage (s : State) : Int × Int × Int × Int := Ledger.tally Call.usage s.calls s.call

/-- What the waiters use. -/
def waitingUsage (s : State) : Int × Int := (s.waiters.map fun t => (s.request t).queueUsage).sum

end State

/-- The counters are the sums over the admitted calls and over the queue. -/
structure Accounted (s : State) : Prop where
  admitted : s.usage = s.admittedUsage
  queued : s.queueUsage = s.waitingUsage

/-- Every counter keeps its limit. -/
structure Within (lim : Limits) (s : State) : Prop where
  requests : s.inFlightRequests ≤ lim.maxInFlightRequests
  bytes : s.inFlightBytes ≤ lim.maxInFlightBytes
  scans : s.scanRequests ≤ lim.maxScanRequests
  scanBytes : s.scanBytes ≤ lim.maxScanBytes
  queued : s.queuedRequests ≤ lim.maxQueuedRequests
  queuedBytes : s.queuedBytes ≤ lim.maxQueuedBytes

/-- Reservations hold no negative size. -/
def Held (s : State) : Prop := ∀ t bytes, s.phase t = .admitted bytes → 0 ≤ bytes

/-- Between two states, calls are admitted and reservations grow only while no
older waiter has a free slot. -/
structure Fair (lim : Limits) (s s' : State) : Prop where
  admission : ∀ t bytes, s'.phase t = .admitted bytes → (∀ b, s.phase t ≠ .admitted b) →
    ∀ w ∈ s.older t, s.admissionSlotsFull lim (s.request w) = true
  growth : ∀ t held bytes, s.phase t = .admitted held → s'.phase t = .admitted bytes →
    held < bytes → ∀ w ∈ s.waiters, s.admissionSlotsFull lim (s.request w) = true

/-! ## Sums under updates -/

theorem Request.usage_release (r : Request) (bytes : Int) :
    r.usage (-1) (-bytes) = -r.usage 1 bytes := by
  unfold Request.usage
  split <;> simp

theorem Request.usage_resize (r : Request) (held bytes : Int) :
    r.usage 1 bytes = r.usage 1 held + (0, bytes - held, 0, 0) := by
  simp [Request.usage]

namespace State

variable {lim : Limits} {s s' : State} {t : Nat}

@[simp] theorem setPhase_usage (p : Phase) : (s.setPhase t p).usage = s.usage := rfl

@[simp] theorem setPhase_queueUsage (p : Phase) : (s.setPhase t p).queueUsage = s.queueUsage := rfl

@[simp] theorem setReady_usage (b : Bool) : (s.setReady t b).usage = s.usage := rfl

@[simp] theorem setReady_queueUsage (b : Bool) : (s.setReady t b).queueUsage = s.queueUsage := rfl

@[simp] theorem adjustDirectQueue_usage (r : Request) (d : Int) :
    (s.adjustDirectQueue r d).usage = s.usage := by
  unfold adjustDirectQueue
  split <;> rfl

theorem adjustDirectQueue_queueUsage (r : Request) (d : Int) :
    (s.adjustDirectQueue r d).queueUsage = s.queueUsage + d • r.queueUsage := by
  unfold adjustDirectQueue Request.queueUsage
  split
  · simp [queueUsage]
  · simp

theorem count_usage (r : Request) (sign bytes : Int) :
    (s.count r sign bytes).usage = s.usage + r.usage sign bytes := by
  unfold count Request.usage usage
  cases r.scan <;> simp

theorem admittedUsage_setPhase (hlt : t < s.calls) (p : Phase) :
    (s.setPhase t p).admittedUsage =
      s.admittedUsage + (p.usage (s.request t) - (s.phase t).usage (s.request t)) :=
  Ledger.tally_update hlt _

@[simp] theorem admittedUsage_setReady (u : Nat) (b : Bool) :
    (s.setReady u b).admittedUsage = s.admittedUsage := by
  refine Ledger.tally_congr fun i => ?_
  have hphase : ((s.setReady u b).call i).phase = (s.call i).phase := setReady_phase b
  have hrequest : ((s.setReady u b).call i).request = (s.call i).request := setReady_request b
  rw [Call.usage, hphase, hrequest]
  rfl

@[simp] theorem waitingUsage_setPhase (p : Phase) :
    (s.setPhase t p).waitingUsage = s.waitingUsage := by
  simp [waitingUsage]

@[simp] theorem waitingUsage_setReady (u : Nat) (b : Bool) :
    (s.setReady u b).waitingUsage = s.waitingUsage := by
  simp [waitingUsage]

end State

/-! ## The counters are exact -/

namespace Accounted

open State

variable {lim : Limits} {s s' : State} {t : Nat}

theorem start : Accounted .start := ⟨rfl, rfl⟩

section

variable (ha : Accounted s)

include ha

theorem setReady (u : Nat) (b : Bool) : Accounted (s.setReady u b) where
  admitted := by simpa using ha.admitted
  queued := by simpa using ha.queued

theorem wake : Accounted (s.wakeAdmissionWaiter lim) :=
  wakeAdmissionWaiter_keeps (fun _ u b h => h.setReady u b) ha

/-- A phase that uses as much as the one before it. -/
theorem setPhase (hlt : t < s.calls) {p : Phase}
    (hp : p.usage (s.request t) = (s.phase t).usage (s.request t)) :
    Accounted (s.setPhase t p) where
  admitted := by
    rw [admittedUsage_setPhase hlt, hp, sub_self, add_zero]
    exact ha.admitted
  queued := by simpa using ha.queued

/-- The counters change by what the call uses more than before. -/
theorem count (hlt : t < s.calls) {p : Phase} {sign bytes : Int}
    (hp : p.usage (s.request t) - (s.phase t).usage (s.request t) =
      (s.request t).usage sign bytes) :
    Accounted ((s.count (s.request t) sign bytes).setPhase t p) where
  admitted := by
    have hadmitted : ((s.count (s.request t) sign bytes).setPhase t p).admittedUsage =
        s.admittedUsage + (p.usage (s.request t) - (s.phase t).usage (s.request t)) :=
      Ledger.tally_update hlt _
    rw [hadmitted, setPhase_usage, count_usage, hp, ha.admitted]
  queued := by
    rw [waitingUsage_setPhase, setPhase_queueUsage]
    exact ha.queued

theorem dequeue (hmem : t ∈ s.waiters) : Accounted (s.dequeue t) where
  admitted := by
    have hadmitted : (s.dequeue t).admittedUsage = s.admittedUsage := by
      simp [State.dequeue, admittedUsage]
    have husage : (s.dequeue t).usage = s.usage := by
      simp only [State.dequeue, adjustDirectQueue_usage]
      rfl
    rw [hadmitted, husage]
    exact ha.admitted
  queued := by
    have hsum : (s.request t).queueUsage +
        ((s.waiters.erase t).map fun u => (s.request u).queueUsage).sum = s.waitingUsage :=
      List.sum_map_erase (fun u => (s.request u).queueUsage) hmem
    have hwaiting : (s.dequeue t).waitingUsage =
        ((s.waiters.erase t).map fun u => (s.request u).queueUsage).sum := by
      simp [State.dequeue, waitingUsage, request]
    have hqueue : (s.dequeue t).queueUsage = s.queueUsage - (s.request t).queueUsage := by
      simp only [State.dequeue, adjustDirectQueue_queueUsage, neg_zsmul, one_zsmul,
        ← sub_eq_add_neg]
      rfl
    rw [hqueue, hwaiting, ha.queued, ← hsum]
    abel

theorem join (hlt : t < s.calls) (hphase : s.phase t = .trying) :
    Accounted ((s.enqueue t).setPhase t .sleeping) := by
  have hready := ha.setReady t false
  have henqueue : Accounted (s.enqueue t) := by
    constructor
    · have hadmitted : (s.enqueue t).admittedUsage = (s.setReady t false).admittedUsage := by
        simp [enqueue, admittedUsage, State.setReady]
      have husage : (s.enqueue t).usage = (s.setReady t false).usage := by
        simp only [enqueue, adjustDirectQueue_usage]
        rfl
      rw [hadmitted, husage]
      exact hready.admitted
    · have hqueue : (s.enqueue t).queueUsage = s.queueUsage + (s.request t).queueUsage := by
        simp only [enqueue, adjustDirectQueue_queueUsage, one_zsmul]
        rfl
      have hwaiting : (s.enqueue t).waitingUsage = s.waitingUsage + (s.request t).queueUsage := by
        simp [waitingUsage]
      rw [hqueue, hwaiting, ha.queued]
  exact henqueue.setPhase (by rw [enqueue_calls]; exact hlt) (by rw [enqueue_phase, hphase]; rfl)

theorem arrive (hq : Queued s) (r : Request) : Accounted (s.arrive r) where
  admitted := by
    have hadmitted : (s.arrive r).admittedUsage = s.admittedUsage + 0 :=
      Ledger.tally_alloc s.calls s.call _
    rw [hadmitted, add_zero]
    exact ha.admitted
  queued := by
    have hwaiting : (s.arrive r).waitingUsage = s.waitingUsage := by
      refine congrArg List.sum (List.map_congr_left fun u hu => ?_)
      have hne : u ≠ s.calls := Nat.ne_of_lt (hq.known u hu)
      simp [State.arrive, request, hne]
    rw [hwaiting]
    exact ha.queued

theorem resize (hlt : t < s.calls) {held bytes : Int} (hphase : s.phase t = .admitted held) :
    Accounted (s.applyResize t bytes (bytes - held)) where
  admitted := by
    have hadmitted : (s.applyResize t bytes (bytes - held)).admittedUsage = s.admittedUsage +
        ((s.request t).usage 1 bytes - (s.phase t).usage (s.request t)) :=
      Ledger.tally_update hlt _
    have husage : (s.applyResize t bytes (bytes - held)).usage =
        s.usage + (0, bytes - held, 0, 0) := by
      simp [applyResize, usage, State.setPhase]
    rw [hadmitted, husage, hphase, Phase.usage, Request.usage_resize _ held, ha.admitted]
    abel
  queued := by
    have hwaiting : (s.applyResize t bytes (bytes - held)).waitingUsage = s.waitingUsage :=
      waitingUsage_setPhase (.admitted bytes)
    rw [hwaiting]
    exact ha.queued

theorem occupy (hlt : t < s.calls) (hphase : s.phase t = .trying) : Accounted (s.occupy t) := by
  refine ha.count hlt ?_
  rw [hphase]
  exact sub_zero _

theorem vacate (hlt : t < s.calls) {bytes : Int} (hphase : s.phase t = .admitted bytes) :
    Accounted (s.vacate t bytes) := by
  refine ha.count hlt ?_
  rw [hphase, Request.usage_release]
  exact zero_sub _

theorem move (hq : Queued s) (h : Move lim s s') : Accounted s' := by
  cases h with
  | arrive r => exact ha.arrive hq r
  | idle => exact ha
  | sleep t hlt hphase _ _ => exact ha.setPhase hlt (by rw [hphase]; rfl)
  | join t hlt hphase _ _ _ => exact ha.join hlt hphase
  | giveUp t ending hlt hphase =>
    have hbefore : (s.phase t).usage (s.request t) = 0 := by
      rcases hphase with hphase | hphase <;> rw [hphase] <;> rfl
    refine ha.setPhase hlt ?_
    rw [hbefore]
    split <;> rfl
  | wakeUp t hlt hphase =>
    refine (ha.setReady t false).setPhase hlt ?_
    rw [setReady_phase, hphase]
    rfl
  | enter t hlt hphase _ _ => exact ha.occupy hlt hphase
  | advance t hlt hphase hmem _ => exact ((ha.occupy hlt hphase).dequeue hmem).wake
  | leave t ending hlt hphase hmem =>
    have hwoken : Accounted ((s.dequeue t).wakeAdmissionWaiter lim) := (ha.dequeue hmem).wake
    refine hwoken.setPhase ?_ ?_
    · rw [wakeAdmissionWaiter_calls, dequeue_calls]
      exact hlt
    · rw [wakeAdmissionWaiter_phase, dequeue_phase, hphase]
      rfl
  | gone t ending hlt hphase _ => exact ha.setPhase hlt (by rw [hphase]; rfl)
  | release t bytes hlt hphase => exact (ha.vacate hlt hphase).wake
  | shrink t held bytes hlt hphase _ _ _ => exact (ha.resize hlt hphase).wake
  | grow t held bytes hlt hphase _ _ _ _ => exact ha.resize hlt hphase

/-- Nothing is admitted and nobody waits: nothing is counted. -/
theorem empty (hnone : ∀ t < s.calls, ∀ bytes, s.phase t ≠ .admitted bytes)
    (hwaiters : s.waiters = []) : s.usage = 0 ∧ s.queueUsage = 0 := by
  constructor
  · rw [ha.admitted]
    refine Ledger.tally_eq_zero fun t hlt => ?_
    have hphase := hnone t hlt
    unfold Call.usage Phase.usage
    split
    · rename_i bytes heq
      exact absurd heq (hphase bytes)
    · rfl
  · rw [ha.queued, waitingUsage, hwaiters]
    rfl

end

end Accounted

/-! ## Who is admitted, and who grows -/

namespace State

variable {lim : Limits} {s s' : State} {t : Nat}

/-- A call is admitted after a move because it was before, because it just
passed the check, or with a reservation that was resized. -/
theorem Move.admitted (h : Move lim s s') {u : Nat} {bytes : Int}
    (hu : s'.phase u = .admitted bytes) :
    s.phase u = .admitted bytes ∨
      (s.phase u = .trying ∧ ¬ Full lim s u ∧ bytes = (s.request u).encodedBytes) ∨
      (∃ held, s.phase u = .admitted held ∧ 0 ≤ bytes ∧
        (bytes < held ∨ s.growthRefused lim (bytes - held) = false)) := by
  -- the one call whose phase the move sets
  have hset : ∀ {t : Nat} {p : Phase}, (if u = t then p else s.phase u) = .admitted bytes →
      s.phase u = .admitted bytes ∨ (u = t ∧ p = .admitted bytes) := by
    intro t p h
    split at h
    · rename_i heq
      exact .inr ⟨heq, h⟩
    · exact .inl h
  have hkept : ∀ {t : Nat} {p : Phase}, (if u = t then p else s.phase u) = .admitted bytes →
      p ≠ .admitted bytes → s.phase u = .admitted bytes :=
    fun h hne => (hset h).resolve_right (hne ·.2)
  cases h with
  | arrive r =>
    rw [arrive_phase] at hu
    exact .inl (hkept hu nofun)
  | idle => exact .inl hu
  | sleep t _ _ _ _ =>
    rw [setPhase_phase] at hu
    exact .inl (hkept hu nofun)
  | join t _ _ _ _ _ =>
    rw [setPhase_phase, enqueue_phase] at hu
    exact .inl (hkept hu nofun)
  | giveUp t ending _ _ =>
    rw [State.giveUp, setPhase_phase] at hu
    exact .inl (hkept hu (by split <;> exact nofun))
  | wakeUp t _ _ =>
    rw [setPhase_phase, setReady_phase] at hu
    exact .inl (hkept hu nofun)
  | enter t _ hphase _ hfree =>
    rw [occupy_phase] at hu
    rcases hset hu with h | ⟨rfl, h⟩
    · exact .inl h
    · cases h
      exact .inr (.inl ⟨hphase, hfree, rfl⟩)
  | advance t _ hphase _ hfree =>
    rw [wakeAdmissionWaiter_phase, dequeue_phase, occupy_phase] at hu
    rcases hset hu with h | ⟨rfl, h⟩
    · exact .inl h
    · cases h
      exact .inr (.inl ⟨hphase, hfree, rfl⟩)
  | leave t ending _ _ _ =>
    rw [setPhase_phase, wakeAdmissionWaiter_phase, dequeue_phase] at hu
    exact .inl (hkept hu nofun)
  | gone t ending _ _ _ =>
    rw [setPhase_phase] at hu
    exact .inl (hkept hu nofun)
  | release t b _ _ =>
    rw [wakeAdmissionWaiter_phase, vacate_phase] at hu
    exact .inl (hkept hu nofun)
  | shrink t held b _ hphase hnonneg hless _ =>
    rw [wakeAdmissionWaiter_phase, applyResize_phase] at hu
    rcases hset hu with h | ⟨rfl, h⟩
    · exact .inl h
    · cases h
      exact .inr (.inr ⟨held, hphase, hnonneg, .inl hless⟩)
  | grow t held b _ hphase hnonneg _ _ hroom =>
    rw [applyResize_phase] at hu
    rcases hset hu with h | ⟨rfl, h⟩
    · exact .inl h
    · cases h
      exact .inr (.inr ⟨held, hphase, hnonneg, .inr hroom⟩)

theorem slotsFull_of_not_eligible (h : s.eligible lim t = false) :
    s.admissionSlotsFull lim (s.request t) = true := by
  simpa [eligible] using h

/-- A call that passes the check has no older waiter with a free slot. -/
theorem older_full (hfree : ¬ Full lim s t) :
    ∀ w ∈ s.older t, s.admissionSlotsFull lim (s.request w) = true := by
  intro w hw
  refine slotsFull_of_not_eligible (Bool.eq_false_iff.mpr fun helig => ?_)
  exact hfree (.inr (.inr (List.any_eq_true.mpr ⟨w, hw, helig⟩)))

theorem waiters_full {delta : Int} (hroom : s.growthRefused lim delta = false) :
    ∀ w ∈ s.waiters, s.admissionSlotsFull lim (s.request w) = true := by
  intro w hw
  rw [growthRefused, Bool.or_eq_false_iff] at hroom
  exact slotsFull_of_not_eligible (Bool.eq_false_iff.mpr (List.any_eq_false.mp hroom.2 w hw))

theorem Move.fair (h : Move lim s s') : Fair lim s s' where
  admission := by
    intro t bytes hafter hbefore
    rcases h.admitted hafter with hsame | ⟨_, hfree, _⟩ | ⟨held, hheld, _⟩
    · exact absurd hsame (hbefore bytes)
    · exact older_full hfree
    · exact absurd hheld (hbefore held)
  growth := by
    intro t held bytes hbefore hafter hmore
    rcases h.admitted hafter with hsame | ⟨htrying, _⟩ | ⟨held', hheld, _, hcase⟩
    · rw [hbefore] at hsame
      cases hsame
      omega
    · rw [hbefore] at htrying
      cases htrying
    · rw [hbefore] at hheld
      cases hheld
      rcases hcase with hless | hroom
      · omega
      · exact waiters_full hroom

end State

theorem Held.move {lim : Limits} {s s' : State} (hh : Held s) (h : State.Move lim s s') :
    Held s' := by
  intro t bytes hafter
  rcases h.admitted hafter with hsame | ⟨_, _, rfl⟩ | ⟨_, _, hnonneg, _⟩
  · exact hh t bytes hsame
  · exact Int.natCast_nonneg _
  · exact hnonneg

/-! ## The limits -/

namespace Within

open State

variable {lim : Limits} {s s' : State} {t : Nat}

theorem start : Within lim .start where
  requests := Int.natCast_nonneg _
  bytes := Int.natCast_nonneg _
  scans := Int.natCast_nonneg _
  scanBytes := Int.natCast_nonneg _
  queued := Int.natCast_nonneg _
  queuedBytes := Int.natCast_nonneg _

section

variable (hw : Within lim s)

include hw

theorem of_usage (husage : s'.usage = s.usage) (hqueue : s'.queueUsage = s.queueUsage) :
    Within lim s' := by
  simp only [usage, queueUsage, Prod.mk.injEq] at husage hqueue
  obtain ⟨h1, h2, h3, h4⟩ := husage
  obtain ⟨h5, h6⟩ := hqueue
  exact ⟨h1 ▸ hw.requests, h2 ▸ hw.bytes, h3 ▸ hw.scans, h4 ▸ hw.scanBytes, h5 ▸ hw.queued,
    h6 ▸ hw.queuedBytes⟩

theorem setPhase (p : Phase) : Within lim (s.setPhase t p) :=
  hw.of_usage rfl rfl

theorem setReady (u : Nat) (b : Bool) : Within lim (s.setReady u b) :=
  hw.of_usage rfl rfl

theorem wake : Within lim (s.wakeAdmissionWaiter lim) :=
  wakeAdmissionWaiter_keeps (fun _ u b h => h.setReady u b) hw

theorem dequeue : Within lim (s.dequeue t) := by
  have hqueued := hw.queued
  have hqueuedBytes := hw.queuedBytes
  unfold State.dequeue adjustDirectQueue
  split
  · constructor
    · exact hw.requests
    · exact hw.bytes
    · exact hw.scans
    · exact hw.scanBytes
    · simp only
      omega
    · simp only
      omega
  · exact hw.of_usage rfl rfl

theorem enqueue
    (hroom : (s.request t).direct = true → s.directWaitQueueFull lim (s.request t) = false) :
    Within lim (s.enqueue t) := by
  unfold State.enqueue adjustDirectQueue
  split
  · rename_i hdirect
    have hfree := hroom hdirect
    simp only [directWaitQueueFull, Bool.or_eq_false_iff, decide_eq_false_iff_not] at hfree
    constructor
    · exact hw.requests
    · exact hw.bytes
    · exact hw.scans
    · exact hw.scanBytes
    · simp only [State.setReady]
      omega
    · simp only [State.setReady]
      omega
  · exact hw.of_usage rfl rfl

theorem occupy (hfree : ¬ Full lim s t) : Within lim (s.occupy t) := by
  rw [Full, admissionSlotsFull_iff, bytesFull_iff, not_or, not_or, not_or, not_and] at hfree
  obtain ⟨⟨hrequests, hscan⟩, hbytes, _⟩ := hfree
  have hscans := hw.scans
  have hscanBytes := hw.scanBytes
  constructor
  · simp only [State.occupy, State.count, State.setPhase]
    omega
  · simp only [State.occupy, State.count, State.setPhase]
    omega
  · simp only [State.occupy, State.count, State.setPhase]
    split
    · have hroom := hscan ‹_›
      omega
    · exact hscans
  · simp only [State.occupy, State.count, State.setPhase]
    split
    · have hroom := hscan ‹_›
      omega
    · exact hscanBytes
  · exact hw.queued
  · exact hw.queuedBytes

theorem vacate {bytes : Int} (hbytes : 0 ≤ bytes) : Within lim (s.vacate t bytes) := by
  have hrequests := hw.requests
  have hall := hw.bytes
  have hscans := hw.scans
  have hscanBytes := hw.scanBytes
  constructor
  · simp only [State.vacate, State.count, State.setPhase]
    omega
  · simp only [State.vacate, State.count, State.setPhase]
    omega
  · simp only [State.vacate, State.count, State.setPhase]
    split <;> omega
  · simp only [State.vacate, State.count, State.setPhase]
    split <;> omega
  · exact hw.queued
  · exact hw.queuedBytes

theorem applyResize {bytes delta : Int} (hfits : s.inFlightBytes + delta ≤ lim.maxInFlightBytes) :
    Within lim (s.applyResize t bytes delta) :=
  ⟨hw.requests, hfits, hw.scans, hw.scanBytes, hw.queued, hw.queuedBytes⟩

theorem move (hh : Held s) (h : Move lim s s') : Within lim s' := by
  cases h with
  | arrive r => exact hw.of_usage rfl rfl
  | idle => exact hw
  | sleep t _ _ _ _ => exact hw.setPhase _
  | join t _ _ _ _ hroom => exact (hw.enqueue hroom).setPhase _
  | giveUp t ending _ _ => exact hw.setPhase _
  | wakeUp t _ _ => exact (hw.setReady t false).setPhase _
  | enter t _ _ _ hfree => exact hw.occupy hfree
  | advance t _ _ _ hfree => exact (hw.occupy hfree).dequeue.wake
  | leave t ending _ _ _ => exact hw.dequeue.wake.setPhase _
  | gone t ending _ _ _ => exact hw.setPhase _
  | release t bytes _ hphase => exact (hw.vacate (hh t bytes hphase)).wake
  | shrink t held bytes _ _ _ hless _ =>
    have hall := hw.bytes
    exact (hw.applyResize (by omega)).wake
  | grow t held bytes _ _ _ _ _ hroom =>
    simp only [growthRefused, Bool.or_eq_false_iff, decide_eq_false_iff_not] at hroom
    exact hw.applyResize (by omega)

end

end Within

/-! ## Every run -/

/-- What holds of every reachable pool. -/
structure Sound (lim : Limits) (s : State) : Prop where
  queued : Queued s
  accounted : Accounted s
  held : Held s
  within : Within lim s

namespace Sound

variable {lim : Limits} {s s' : State}

theorem start : Sound lim .start where
  queued := .start
  accounted := .start
  held := by
    intro t bytes h
    cases h
  within := .start

theorem move (hs : Sound lim s) (h : State.Move lim s s') : Sound lim s' where
  queued := hs.queued.move h
  accounted := hs.accounted.move hs.queued h
  held := hs.held.move h
  within := hs.within.move hs.held h

theorem run {actions : List Action}
    (hrun : Machine.run (State.step lim) .start actions = some s) : Sound lim s :=
  Machine.run_invariant (fun _ _ _ hs h => hs.move (State.step_move h)) start hrun

end Sound

/-- In every run of calls, releases, cancellations, timeouts and resizes, the
counters are the sums over the admitted calls and the queue, within their
limits; the next step is fair; and a pool without calls counts nothing. -/
theorem admission_accounted (lim : Limits) (actions : List Action) (s : State)
    (hrun : Machine.run (State.step lim) .start actions = some s) :
    Accounted s ∧ Within lim s ∧ (∀ a s', s.step lim a = some s' → Fair lim s s') ∧
      ((∀ t < s.calls, ∀ bytes, s.phase t ≠ .admitted bytes) → s.waiters = [] →
        s.usage = 0 ∧ s.queueUsage = 0) := by
  have hs := Sound.run hrun
  refine ⟨hs.accounted, hs.within, ?_, hs.accounted.empty⟩
  intro a s' hstep
  exact (State.step_move hstep).fair

/-- A direct call waits for the only slot and is admitted after the release. -/
theorem admission_accounted_hand_over :
    let lim : Limits := ⟨1, 100, 1, 100, 1, 1000⟩
    let actions : List Action := [.call ⟨60, 10, true, false, true, true⟩, .check 0,
      .resize 0 40, .call ⟨70, 20, true, false, true, true⟩, .check 1, .release 0, .wakeUp 1,
      .check 1]
    ∃ s, Machine.run (State.step lim) .start actions = some s ∧ s.usage = (1, 70, 0, 0) ∧
      Accounted s ∧ Within lim s := by
  intro lim actions
  have hlast : (Machine.run (State.step lim) .start actions).map State.usage =
      some (1, 70, 0, 0) := by decide
  obtain ⟨s, hrun, husage⟩ := Option.map_eq_some_iff.mp hlast
  have hall := admission_accounted lim actions s hrun
  exact ⟨s, hrun, husage, hall.1, hall.2.1⟩

end Sink.Admission
