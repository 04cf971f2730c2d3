import Mathlib.Data.List.Nodup
import Sink.Admission.Pool

/-!
# What a step of the pool can do

`Move` lists the effects a step can have on the pool, each with the condition
the code tested for it; `step_move` is the only place where `step` and `check`
are unfolded. The invariants of the queue follow: waiters are distinct calls
that have been made and are still inside `admitRequest`.
-/

namespace Sink.Admission

open List Option

namespace State

variable {lim : Limits} {s s' : State} {t u : Nat}

/-! ## Reading the updates -/

@[simp] theorem setPhase_request (p : Phase) : (s.setPhase t p).request u = s.request u := by
  by_cases h : u = t
  · subst h
    simp [setPhase, request]
  · simp [setPhase, request, h]

@[simp] theorem setPhase_ready (p : Phase) : (s.setPhase t p).ready u = s.ready u := by
  by_cases h : u = t
  · subst h
    simp [setPhase, ready]
  · simp [setPhase, ready, h]

theorem setPhase_phase (p : Phase) : (s.setPhase t p).phase u = if u = t then p else s.phase u := by
  by_cases h : u = t
  · subst h
    simp [setPhase, phase]
  · simp [setPhase, phase, h]

@[simp] theorem setReady_request (b : Bool) : (s.setReady t b).request u = s.request u := by
  by_cases h : u = t
  · subst h
    simp [setReady, request]
  · simp [setReady, request, h]

@[simp] theorem setReady_phase (b : Bool) : (s.setReady t b).phase u = s.phase u := by
  by_cases h : u = t
  · subst h
    simp [setReady, phase]
  · simp [setReady, phase, h]

theorem setReady_ready (b : Bool) : (s.setReady t b).ready u = if u = t then b else s.ready u := by
  by_cases h : u = t
  · subst h
    simp [setReady, ready]
  · simp [setReady, ready, h]

@[simp] theorem setPhase_waiters (p : Phase) : (s.setPhase t p).waiters = s.waiters := rfl

@[simp] theorem setReady_waiters (b : Bool) : (s.setReady t b).waiters = s.waiters := rfl

@[simp] theorem setReady_calls (b : Bool) : (s.setReady t b).calls = s.calls := rfl

variable (r : Request) (d : Int)

@[simp] theorem adjustDirectQueue_waiters : (s.adjustDirectQueue r d).waiters = s.waiters := by
  unfold adjustDirectQueue
  split <;> rfl

@[simp] theorem adjustDirectQueue_calls : (s.adjustDirectQueue r d).calls = s.calls := by
  unfold adjustDirectQueue
  split <;> rfl

@[simp] theorem adjustDirectQueue_call : (s.adjustDirectQueue r d).call = s.call := by
  unfold adjustDirectQueue
  split <;> rfl

/-- Waking the queue leaves at most a token behind. -/
theorem wakeAdmissionWaiter_cases (lim : Limits) (s : State) :
    s.wakeAdmissionWaiter lim = s ∨ ∃ u, s.wakeAdmissionWaiter lim = s.setReady u true := by
  unfold wakeAdmissionWaiter
  split
  · exact .inl rfl
  split
  · exact .inl rfl
  · exact .inr ⟨_, rfl⟩

/-- What tokens do not change, waking does not change. -/
theorem wakeAdmissionWaiter_keeps {P : State → Prop}
    (hready : ∀ (s : State) u b, P s → P (s.setReady u b)) (hs : P s) :
    P (s.wakeAdmissionWaiter lim) := by
  rcases wakeAdmissionWaiter_cases lim s with h | ⟨u, h⟩
  · rw [h]
    exact hs
  · rw [h]
    exact hready s u true hs

theorem admissionSlotsFull_iff {r : Request} : s.admissionSlotsFull lim r = true ↔
    s.inFlightRequests ≥ lim.maxInFlightRequests ∨ (r.scan = true ∧ (s.scanRequests ≥
      lim.maxScanRequests ∨ r.encodedBytes > lim.maxScanBytes - s.scanBytes)) := by
  simp only [admissionSlotsFull, Bool.or_eq_true, Bool.and_eq_true, decide_eq_true_eq]

theorem bytesFull_iff {r : Request} : s.bytesFull lim r = true ↔
    r.encodedBytes > lim.maxInFlightBytes - s.inFlightBytes :=
  decide_eq_true_iff

/-! ## Moves -/

/-- The call has to wait: a limit is reached, or an older waiter has a free slot. -/
def Full (lim : Limits) (s : State) (t : Nat) : Prop :=
  s.admissionSlotsFull lim (s.request t) = true ∨ s.bytesFull lim (s.request t) = true ∨
    (s.older t).any (s.eligible lim) = true

@[simp] theorem wakeAdmissionWaiter_phase : (s.wakeAdmissionWaiter lim).phase u = s.phase u :=
  wakeAdmissionWaiter_keeps (P := fun x => x.phase u = s.phase u)
    (fun _ _ b h => (setReady_phase b).trans h) rfl

@[simp] theorem wakeAdmissionWaiter_calls : (s.wakeAdmissionWaiter lim).calls = s.calls :=
  wakeAdmissionWaiter_keeps (P := fun x => x.calls = s.calls) (fun _ _ _ h => h) rfl

@[simp] theorem wakeAdmissionWaiter_waiters : (s.wakeAdmissionWaiter lim).waiters = s.waiters :=
  wakeAdmissionWaiter_keeps (P := fun x => x.waiters = s.waiters) (fun _ _ _ h => h) rfl

@[simp] theorem enqueue_phase : (s.enqueue t).phase u = s.phase u := by
  simp only [enqueue, phase, adjustDirectQueue_call]
  exact setReady_phase false

@[simp] theorem enqueue_request : (s.enqueue t).request u = s.request u := by
  simp only [enqueue, request, adjustDirectQueue_call]
  exact setReady_request false

@[simp] theorem enqueue_waiters : (s.enqueue t).waiters = s.waiters ++ [t] := by
  simp [enqueue]

@[simp] theorem enqueue_calls : (s.enqueue t).calls = s.calls := by
  simp [enqueue]

/-- The state without the waiter, before the next one is woken. -/
def dequeue (s : State) (t : Nat) : State :=
  ({ s with waiters := s.waiters.erase t }).adjustDirectQueue (s.request t) (-1)

@[simp] theorem dequeue_phase : (s.dequeue t).phase u = s.phase u := by
  simp [dequeue, phase]

@[simp] theorem dequeue_waiters : (s.dequeue t).waiters = s.waiters.erase t := by
  simp [dequeue]

@[simp] theorem dequeue_calls : (s.dequeue t).calls = s.calls := by
  simp [dequeue]

/-- The counters and the phase of an admission, before the queue changes. -/
def occupy (s : State) (t : Nat) : State :=
  (s.count (s.request t) 1 (s.request t).encodedBytes).setPhase t
    (.admitted (s.request t).encodedBytes)

/-- The counters and the phase of a release, before a waiter is woken. -/
def vacate (s : State) (t : Nat) (bytes : Int) : State :=
  (s.count (s.request t) (-1) (-bytes)).setPhase t (.ended .released)

/-- A new call. -/
def arrive (s : State) (r : Request) : State :=
  { s with
    calls := s.calls + 1
    call := Function.update s.call s.calls ⟨r, .trying, false⟩ }

theorem occupy_phase :
    (s.occupy t).phase u = if u = t then .admitted (s.request t).encodedBytes else s.phase u :=
  setPhase_phase _

theorem vacate_phase (bytes : Int) :
    (s.vacate t bytes).phase u = if u = t then .ended .released else s.phase u :=
  setPhase_phase _

theorem applyResize_phase (bytes delta : Int) :
    (s.applyResize t bytes delta).phase u = if u = t then .admitted bytes else s.phase u :=
  setPhase_phase _

theorem arrive_phase (r : Request) :
    (s.arrive r).phase u = if u = s.calls then .trying else s.phase u := by
  by_cases h : u = s.calls
  · simp [arrive, phase, h]
  · simp [arrive, phase, h]

inductive Move (lim : Limits) (s : State) : State → Prop where
  | arrive (r : Request) : Move lim s (s.arrive r)
  | idle : Move lim s s
  /-- A queued call finds the pool full again. -/
  | sleep (t : Nat) (hlt : t < s.calls) (hphase : s.phase t = .trying) (hmem : t ∈ s.waiters)
      (hfull : Full lim s t) : Move lim s (s.setPhase t .sleeping)
  | join (t : Nat) (hlt : t < s.calls) (hphase : s.phase t = .trying) (hmem : t ∉ s.waiters)
      (hfull : Full lim s t)
      (hroom : (s.request t).direct = true → s.directWaitQueueFull lim (s.request t) = false) :
      Move lim s ((s.enqueue t).setPhase t .sleeping)
  | giveUp (t : Nat) (ending : Ending) (hlt : t < s.calls)
      (hphase : s.phase t = .trying ∨ s.phase t = .sleeping) : Move lim s (s.giveUp t ending)
  | wakeUp (t : Nat) (hlt : t < s.calls) (hphase : s.phase t = .sleeping) :
      Move lim s ((s.setReady t false).setPhase t .trying)
  /-- Admission of a call that is not queued. -/
  | enter (t : Nat) (hlt : t < s.calls) (hphase : s.phase t = .trying) (hmem : t ∉ s.waiters)
      (hfree : ¬ Full lim s t) : Move lim s (s.occupy t)
  /-- Admission of a waiter. -/
  | advance (t : Nat) (hlt : t < s.calls) (hphase : s.phase t = .trying) (hmem : t ∈ s.waiters)
      (hfree : ¬ Full lim s t) :
      Move lim s (((s.occupy t).dequeue t).wakeAdmissionWaiter lim)
  | leave (t : Nat) (ending : Ending) (hlt : t < s.calls) (hphase : s.phase t = .leaving ending)
      (hmem : t ∈ s.waiters) :
      Move lim s (((s.dequeue t).wakeAdmissionWaiter lim).setPhase t (.ended ending))
  | gone (t : Nat) (ending : Ending) (hlt : t < s.calls) (hphase : s.phase t = .leaving ending)
      (hmem : t ∉ s.waiters) : Move lim s (s.setPhase t (.ended ending))
  | release (t : Nat) (bytes : Int) (hlt : t < s.calls) (hphase : s.phase t = .admitted bytes) :
      Move lim s ((s.vacate t bytes).wakeAdmissionWaiter lim)
  | shrink (t : Nat) (held bytes : Int) (hlt : t < s.calls) (hphase : s.phase t = .admitted held)
      (hnonneg : 0 ≤ bytes) (hless : bytes < held) (hmax : bytes ≤ (s.request t).encodedBytes) :
      Move lim s ((s.applyResize t bytes (bytes - held)).wakeAdmissionWaiter lim)
  | grow (t : Nat) (held bytes : Int) (hlt : t < s.calls) (hphase : s.phase t = .admitted held)
      (hnonneg : 0 ≤ bytes) (hmore : held < bytes) (hmax : bytes ≤ (s.request t).encodedBytes)
      (hroom : s.growthRefused lim (bytes - held) = false) :
      Move lim s (s.applyResize t bytes (bytes - held))

theorem waitForChange_move (reason : Reason) (hlt : t < s.calls) (hphase : s.phase t = .trying)
    (hfull : Full lim s t) : Move lim s (s.waitForChange lim t reason) := by
  simp only [waitForChange]
  split
  · by_cases hmem : t ∈ s.waiters
    · rw [if_pos hmem]
      exact .sleep t hlt hphase hmem hfull
    rw [if_neg hmem]
    by_cases hqueue : ((s.request t).direct && s.directWaitQueueFull lim (s.request t)) = true
    · rw [if_pos hqueue]
      exact .giveUp t _ hlt (.inl hphase)
    rw [if_neg hqueue]
    split
    · exact .giveUp t _ hlt (.inl hphase)
    · refine .join t hlt hphase hmem hfull fun hdirect => ?_
      simpa [hdirect] using hqueue
  · exact .giveUp t _ hlt (.inl hphase)

theorem startExecution_move (hlt : t < s.calls) (hphase : s.phase t = .trying)
    (hfree : ¬ Full lim s t) : Move lim s (s.startExecution lim t) := by
  by_cases hmem : t ∈ s.waiters
  · have heq : s.startExecution lim t = ((s.occupy t).dequeue t).wakeAdmissionWaiter lim := by
      have hin : t ∈ (s.occupy t).waiters := hmem
      exact if_pos hin
    rw [heq]
    exact .advance t hlt hphase hmem hfree
  · have heq : s.startExecution lim t = s.occupy t := by
      have hout : t ∉ (s.occupy t).waiters := hmem
      exact if_neg hout
    rw [heq]
    exact .enter t hlt hphase hmem hfree

theorem check_move (hlt : t < s.calls) (hphase : s.phase t = .trying) :
    Move lim s (s.check lim t) := by
  simp only [check]
  split
  · rename_i h
    rw [Bool.or_eq_true] at h
    refine waitForChange_move _ hlt hphase ?_
    rcases h with h | h
    · exact .inl h
    · exact .inr (.inl h)
  · rename_i h
    rw [Bool.or_eq_true, not_or] at h
    split
    · rename_i hold
      exact waitForChange_move _ hlt hphase (.inr (.inr hold))
    rename_i hold
    refine startExecution_move hlt hphase fun hfull => ?_
    rcases hfull with hfull | hfull | hfull
    · exact h.1 hfull
    · exact h.2 hfull
    · exact hold hfull

theorem resize_move {held bytes : Int} (hlt : t < s.calls) (hphase : s.phase t = .admitted held) :
    Move lim s (s.resize lim t held bytes) := by
  simp only [resize]
  split
  · exact .idle
  split
  · exact .idle
  split
  · exact .idle
  rename_i hzero hrefused
  split
  · exact .shrink t held bytes hlt hphase (by omega) (by omega) (by omega)
  refine .grow t held bytes hlt hphase (by omega) (by omega) (by omega) ?_
  have hpos : bytes - held > 0 := by omega
  exact Bool.eq_false_iff.mpr fun hgrow => hrefused ⟨hpos, hgrow⟩

theorem step_move {a : Action} (h : s.step lim a = some s') : Move lim s s' := by
  cases a with
  | call r =>
    cases h
    exact .arrive r
  | check t =>
    obtain ⟨⟨hlt, hphase⟩, hs⟩ := ite_none_right_eq_some.mp h
    cases hs
    exact check_move hlt hphase
  | wakeUp t =>
    obtain ⟨⟨hlt, hphase, _⟩, hs⟩ := ite_none_right_eq_some.mp h
    cases hs
    exact .wakeUp t hlt hphase
  | cancel t =>
    obtain ⟨⟨hlt, hphase⟩, hs⟩ := ite_none_right_eq_some.mp h
    cases hs
    exact .giveUp t _ hlt hphase
  | timeOut t =>
    obtain ⟨⟨hlt, hphase, _⟩, hs⟩ := ite_none_right_eq_some.mp h
    cases hs
    exact .giveUp t _ hlt hphase
  | leave t =>
    simp only [step] at h
    split at h
    · rename_i ending hphase
      obtain ⟨hlt, hs⟩ := ite_none_right_eq_some.mp h
      cases hs
      by_cases hmem : t ∈ s.waiters
      · have heq : s.removeAdmissionWaiter lim t = (s.dequeue t).wakeAdmissionWaiter lim :=
          if_pos hmem
        rw [heq]
        exact .leave t ending hlt hphase hmem
      · have heq : s.removeAdmissionWaiter lim t = s := if_neg hmem
        rw [heq]
        exact .gone t ending hlt hphase hmem
    · cases h
  | release t =>
    simp only [step] at h
    split at h
    · rename_i bytes hphase
      obtain ⟨hlt, hs⟩ := ite_none_right_eq_some.mp h
      cases hs
      exact .release t bytes hlt hphase
    · cases h
  | resize t bytes =>
    simp only [step] at h
    split at h
    · rename_i held hphase
      obtain ⟨⟨hlt, _⟩, hs⟩ := ite_none_right_eq_some.mp h
      cases hs
      exact resize_move hlt hphase
    · obtain ⟨_, hs⟩ := ite_none_right_eq_some.mp h
      cases hs
      exact .idle
    · cases h

end State

/-! ## The queue -/

/-- The call is inside `admitRequest`. -/
def Phase.waiting : Phase → Bool
  | .trying | .sleeping | .leaving _ => true
  | .admitted _ | .ended _ => false

/-- The waiters are distinct calls inside `admitRequest`. -/
structure Queued (s : State) : Prop where
  nodup : s.waiters.Nodup
  known : ∀ t ∈ s.waiters, t < s.calls
  inside : ∀ t ∈ s.waiters, (s.phase t).waiting = true

namespace Queued

open State

variable {lim : Limits} {s s' : State} {t : Nat}

theorem start : Queued .start where
  nodup := nodup_nil
  known := by simp [State.start]
  inside := by simp [State.start]

section

variable (hq : Queued s)

include hq

/-- Waiters may leave the queue; those that stay keep waiting. -/
theorem of_sublist (hsub : s'.waiters.Sublist s.waiters) (hcalls : s.calls ≤ s'.calls)
    (hinside : ∀ u ∈ s'.waiters, u ∈ s.waiters → (s.phase u).waiting = true →
      (s'.phase u).waiting = true) : Queued s' where
  nodup := hq.nodup.sublist hsub
  known := fun u hu => Nat.lt_of_lt_of_le (hq.known u (hsub.subset hu)) hcalls
  inside := fun u hu => hinside u hu (hsub.subset hu) (hq.inside u (hsub.subset hu))

theorem setReady (u : Nat) (b : Bool) : Queued (s.setReady u b) := by
  refine hq.of_sublist (.refl _) (Nat.le_refl _) fun v _ _ hv => ?_
  rw [setReady_phase]
  exact hv

theorem setPhase {p : Phase} (hp : t ∈ s.waiters → p.waiting = true) : Queued (s.setPhase t p) := by
  refine hq.of_sublist (.refl _) (Nat.le_refl _) fun u hu _ hwaiting => ?_
  rw [setPhase_phase]
  split
  · rename_i heq
    exact hp (heq ▸ hu)
  · exact hwaiting

theorem wake : Queued (s.wakeAdmissionWaiter lim) :=
  wakeAdmissionWaiter_keeps (fun _ u b h => h.setReady u b) hq

theorem not_mem_of_phase (h : (s.phase t).waiting = false) : t ∉ s.waiters := by
  intro hmem
  rw [hq.inside t hmem] at h
  cases h

theorem dequeue : Queued (s.dequeue t) := by
  refine hq.of_sublist ?_ ?_ fun u _ _ hu => ?_
  · rw [dequeue_waiters]
    exact erase_sublist
  · exact Nat.le_of_eq dequeue_calls.symm
  · rw [dequeue_phase]
    exact hu

theorem not_mem_dequeue : t ∉ (s.dequeue t).waiters := by
  rw [dequeue_waiters]
  exact hq.nodup.not_mem_erase

theorem arrive (r : Request) : Queued (s.arrive r) := by
  refine hq.of_sublist (.refl _) (Nat.le_succ _) fun u _ hu hwaiting => ?_
  rw [arrive_phase, if_neg (Nat.ne_of_lt (hq.known u hu))]
  exact hwaiting

theorem enqueue (hlt : t < s.calls) (hphase : s.phase t = .trying) (hmem : t ∉ s.waiters) :
    Queued (s.enqueue t) where
  nodup := by
    rw [enqueue_waiters]
    exact nodup_append.mpr ⟨hq.nodup, nodup_singleton t, fun a ha b hb hab =>
      hmem (mem_singleton.mp hb ▸ hab ▸ ha)⟩
  known := by
    intro u hu
    rw [enqueue_waiters, mem_append, mem_singleton] at hu
    rw [enqueue_calls]
    rcases hu with hu | rfl
    · exact hq.known u hu
    · exact hlt
  inside := by
    intro u hu
    rw [enqueue_waiters, mem_append, mem_singleton] at hu
    rw [enqueue_phase]
    rcases hu with hu | rfl
    · exact hq.inside u hu
    · rw [hphase]
      rfl

theorem count (r : Request) (sign bytes : Int) :
    Queued (s.count r sign bytes) := ⟨hq.nodup, hq.known, hq.inside⟩

/-- The waiter that is admitted is out of the queue when its phase changes. -/
theorem advance : Queued ((s.occupy t).dequeue t) := by
  refine hq.of_sublist ?_ ?_ fun u hu _ hwaiting => ?_
  · rw [dequeue_waiters]
    exact erase_sublist
  · exact Nat.le_of_eq (dequeue_calls (s := s.occupy t)).symm
  · rw [dequeue_waiters] at hu
    rw [dequeue_phase, occupy_phase, if_neg (hq.nodup.mem_erase_iff.mp hu).1]
    exact hwaiting

theorem applyResize {held : Int} (hphase : s.phase t = .admitted held) (bytes delta : Int) :
    Queued (s.applyResize t bytes delta) := by
  have hout : t ∉ s.waiters := hq.not_mem_of_phase (by rw [hphase]; rfl)
  have hset : Queued (s.setPhase t (.admitted bytes)) := hq.setPhase fun h => absurd h hout
  exact ⟨hset.nodup, hset.known, hset.inside⟩

theorem move (h : Move lim s s') : Queued s' := by
  cases h with
  | arrive r => exact hq.arrive r
  | idle => exact hq
  | sleep t _ _ _ _ => exact hq.setPhase fun _ => rfl
  | join t hlt hphase hmem _ _ => exact (hq.enqueue hlt hphase hmem).setPhase fun _ => rfl
  | giveUp t ending _ _ =>
    refine hq.setPhase fun hmem => ?_
    rw [if_pos hmem]
    rfl
  | wakeUp t _ _ => exact (hq.setReady t false).setPhase fun _ => rfl
  | enter t _ _ hmem _ =>
    exact (hq.count _ _ _).setPhase fun h => absurd h hmem
  | advance t _ _ _ _ => exact hq.advance.wake
  | leave t ending _ _ _ =>
    refine hq.dequeue.wake.setPhase fun h => ?_
    rw [wakeAdmissionWaiter_waiters] at h
    exact absurd h hq.not_mem_dequeue
  | gone t ending _ _ hmem => exact hq.setPhase fun h => absurd h hmem
  | release t bytes _ hphase =>
    have hout : t ∉ s.waiters := hq.not_mem_of_phase (by rw [hphase]; rfl)
    exact ((hq.count _ _ _).setPhase fun h => absurd h hout).wake
  | shrink t held bytes _ hphase _ _ _ => exact (hq.applyResize hphase _ _).wake
  | grow t held bytes _ hphase _ _ _ _ => exact hq.applyResize hphase _ _

end

end Queued

end Sink.Admission
