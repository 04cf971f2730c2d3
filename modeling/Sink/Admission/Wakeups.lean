import Mathlib.Data.List.Find
import Mathlib.Data.List.TakeWhile
import Sink.Admission.Accounting

/-!
# No lost wake-up

Only one waiter is woken per event, so a token that goes to the wrong waiter,
or is taken by a waiter that cannot use it, could leave an admissible waiter
asleep. `Alert` says that this does not happen: the oldest waiter with a free
slot, if its bytes fit, is not asleep without a token. Every event that frees
capacity or changes who is oldest ends with `wakeAdmissionWaiter`, which
establishes `Alert` from any state; every other event keeps it.

A waiter that took its token and then found its context done is not about to
check again: it leaves the queue, and its removal wakes the next waiter.
-/

namespace Sink.Admission

open State List

/-- The oldest waiter with a free slot does not sleep through free bytes. -/
def Alert (lim : Limits) (s : State) : Prop :=
  ∀ t, s.waiters.find? (s.eligible lim) = some t → s.bytesFull lim (s.request t) = false →
    s.ready t = true ∨ s.phase t ≠ .sleeping

variable {lim : Limits} {s s' : State} {t : Nat}

/-! ## Who is eligible -/

@[simp] theorem State.setPhase_eligible (p : Phase) :
    (s.setPhase t p).eligible lim = s.eligible lim := by
  funext u
  simp only [eligible, setPhase_request]
  rfl

@[simp] theorem State.setReady_eligible (b : Bool) :
    (s.setReady t b).eligible lim = s.eligible lim := by
  funext u
  simp only [eligible, setReady_request]
  rfl

@[simp] theorem State.enqueue_eligible : (s.enqueue t).eligible lim = s.eligible lim := by
  funext u
  simp only [eligible, enqueue_request]
  unfold enqueue adjustDirectQueue
  split <;> rfl

theorem State.enqueue_bytesFull (r : Request) :
    (s.enqueue t).bytesFull lim r = s.bytesFull lim r := by
  unfold enqueue adjustDirectQueue
  split <;> rfl

/-- Nobody before the oldest eligible waiter is eligible. -/
theorem State.older_of_find (h : s.waiters.find? (s.eligible lim) = some t) :
    (s.older t).any (s.eligible lim) = false := by
  obtain ⟨helig, before, after, hsplit, hbefore⟩ := find?_eq_some_iff_append.mp h
  refine any_eq_false.mpr fun u hu => ?_
  -- the waiters before the call are a prefix of those before its first place
  have hne : ∀ v ∈ before, (v != t) = true := by
    intro v hv
    refine bne_iff_ne.mpr fun heq => ?_
    have hnot := hbefore v hv
    rw [heq, helig] at hnot
    cases hnot
  rw [older, hsplit, takeWhile_append_of_pos hne] at hu
  simp only [bne_self_eq_false, Bool.false_eq_true, not_false_eq_true,
    takeWhile_cons_of_neg, append_nil] at hu
  simpa using hbefore u hu

theorem State.Full.bytesFull_of_find (hfull : Full lim s t)
    (h : s.waiters.find? (s.eligible lim) = some t) : s.bytesFull lim (s.request t) = true := by
  have helig := find?_some h
  rcases hfull with hfull | hfull | hfull
  · simp [eligible, hfull] at helig
  · exact hfull
  · rw [older_of_find h] at hfull
    cases hfull

/-! ## Steps -/

namespace Alert

/-- Waking the queue is enough, whatever happened before. -/
theorem wake (lim : Limits) (s : State) : Alert lim (s.wakeAdmissionWaiter lim) := by
  intro t hfind hfits
  unfold wakeAdmissionWaiter at hfind hfits ⊢
  cases hold : s.waiters.find? (s.eligible lim) with
  | none =>
    simp only [hold] at hfind
    cases hfind
  | some u =>
    simp only [hold] at hfind hfits ⊢
    split at hfind
    · rename_i hfull
      rw [hold] at hfind
      cases hfind
      rw [if_pos hfull, hfull] at hfits
      cases hfits
    · rename_i hroom
      rw [setReady_waiters, setReady_eligible, hold] at hfind
      cases hfind
      rw [if_neg hroom, setReady_ready, if_pos rfl]
      exact .inl rfl

/-- Waiters that were awake stay awake, and nobody else becomes admissible. -/
theorem of_frame (ha : Alert lim s) (hwaiters : s'.waiters = s.waiters)
    (helig : ∀ u ∈ s.waiters, s'.eligible lim u = s.eligible lim u)
    (hbytes : ∀ u ∈ s.waiters, s'.bytesFull lim (s'.request u) = s.bytesFull lim (s.request u))
    (hawake : ∀ u ∈ s.waiters, s.ready u = true ∨ s.phase u ≠ .sleeping →
      s'.ready u = true ∨ s'.phase u ≠ .sleeping) : Alert lim s' := by
  intro t hfind hfits
  rw [hwaiters, find?_congr helig] at hfind
  have hmem := mem_of_find?_eq_some hfind
  rw [hbytes t hmem] at hfits
  exact hawake t hmem (ha t hfind hfits)

theorem of_none (h : ∀ u ∈ s.waiters, s.eligible lim u = false) : Alert lim s := by
  intro t hfind _
  have hnot := h t (mem_of_find?_eq_some hfind)
  rw [find?_some hfind] at hnot
  cases hnot

theorem setPhase (ha : Alert lim s) {p : Phase} (hp : p ≠ .sleeping) :
    Alert lim (s.setPhase t p) := by
  refine ha.of_frame rfl (fun u _ => by rw [setPhase_eligible]) ?_ ?_
  · intro u _
    rw [setPhase_request]
    rfl
  · intro u _ hu
    rw [setPhase_ready, setPhase_phase]
    split
    · exact .inr hp
    · exact hu

/-- A waiter that checked in vain may sleep: its bytes do not fit. -/
theorem sleep (ha : Alert lim s) (hfull : Full lim s t) : Alert lim (s.setPhase t .sleeping) := by
  intro u hfind hfits
  rw [setPhase_waiters, setPhase_eligible] at hfind
  rw [setPhase_request] at hfits
  have hfits' : s.bytesFull lim (s.request u) = false := hfits
  have hne : u ≠ t := by
    rintro rfl
    rw [hfull.bytesFull_of_find hfind] at hfits'
    cases hfits'
  rw [setPhase_ready, setPhase_phase, if_neg hne]
  exact ha u hfind hfits'

/-- A new waiter is the oldest eligible one only when its bytes do not fit. -/
theorem join (ha : Alert lim s) (hmem : t ∉ s.waiters) (hfull : Full lim s t) :
    Alert lim ((s.enqueue t).setPhase t .sleeping) := by
  intro u hfind hfits
  rw [setPhase_waiters, setPhase_eligible, enqueue_waiters, enqueue_eligible] at hfind
  rw [setPhase_request, enqueue_request] at hfits
  have hfits' : s.bytesFull lim (s.request u) = false := by
    rw [← enqueue_bytesFull]
    exact hfits
  cases hold : s.waiters.find? (s.eligible lim) with
  | some v =>
    rw [find?_append, hold] at hfind
    cases hfind
    have hne : u ≠ t := by
      rintro rfl
      exact hmem (mem_of_find?_eq_some hold)
    have hready : (s.enqueue t).ready u = s.ready u := by
      simp only [enqueue, ready, adjustDirectQueue_call]
      exact (setReady_ready false).trans (if_neg hne)
    rw [setPhase_ready, setPhase_phase, if_neg hne, enqueue_phase, hready]
    exact ha u hold hfits'
  | none =>
    rw [find?_append, hold, Option.none_or] at hfind
    have heq : u = t := mem_singleton.mp (mem_of_find?_eq_some hfind)
    have helig := find?_some hfind
    subst heq
    rcases hfull with hslots | hbytes | holder
    · simp [eligible, hslots] at helig
    · rw [hbytes] at hfits'
      cases hfits'
    · obtain ⟨v, hv, hvelig⟩ := any_eq_true.mp holder
      have hvmem : v ∈ s.waiters := (takeWhile_sublist _).subset hv
      exact absurd hvelig (find?_eq_none.mp hold v hvmem)

/-- A call that is not queued is admitted only past a queue without free slots,
and takes none of them back. -/
theorem enter (hmem : t ∉ s.waiters) (hfree : ¬ Full lim s t) : Alert lim (s.occupy t) := by
  have hall : s.older t = s.waiters := by
    refine takeWhile_eq_self_iff.mpr fun u hu => bne_iff_ne.mpr ?_
    rintro rfl
    exact hmem hu
  refine of_none fun u hu => ?_
  have hslots : s.admissionSlotsFull lim (s.request u) = true :=
    older_full hfree u (by rw [hall]; exact hu)
  have hstill : (s.occupy t).admissionSlotsFull lim (s.request u) = true := by
    rw [admissionSlotsFull_iff] at hslots ⊢
    simp only [State.occupy, State.count, State.setPhase]
    rcases hslots with h | ⟨hscan, h⟩
    · exact .inl (by omega)
    refine .inr ⟨hscan, ?_⟩
    rcases h with h | h
    · refine .inl ?_
      split <;> omega
    · refine .inr ?_
      split <;> omega
  have hrequest : (s.occupy t).request u = s.request u := setPhase_request _
  rw [eligible, hrequest, hstill]
  rfl

/-- A reservation grows only past a queue without free slots. -/
theorem grow {bytes delta : Int} (hroom : s.growthRefused lim delta = false) :
    Alert lim (s.applyResize t bytes delta) := by
  refine of_none fun u hu => ?_
  have hslots := waiters_full hroom u hu
  have hrequest : (s.applyResize t bytes delta).request u = s.request u := setPhase_request _
  rw [eligible, hrequest, Bool.not_eq_false']
  exact hslots

theorem move (ha : Alert lim s) (hq : Queued s) (h : Move lim s s') : Alert lim s' := by
  cases h with
  | arrive r =>
    have hold : ∀ u ∈ s.waiters, (s.arrive r).call u = s.call u := by
      intro u hu
      exact Function.update_of_ne (Nat.ne_of_lt (hq.known u hu)) _ _
    refine ha.of_frame rfl ?_ ?_ ?_
    · intro u hu
      simp only [eligible, request, hold u hu]
      rfl
    · intro u hu
      simp only [request, hold u hu]
      rfl
    · intro u hu hawake
      simp only [ready, phase, hold u hu]
      exact hawake
  | idle => exact ha
  | sleep t _ _ _ hfull => exact ha.sleep hfull
  | join t _ _ hmem hfull _ => exact ha.join hmem hfull
  | giveUp t ending _ _ =>
    refine ha.setPhase ?_
    split <;> exact Phase.noConfusion
  | wakeUp t _ _ =>
    -- the token is used up, and its owner no longer sleeps
    refine ha.of_frame rfl ?_ ?_ ?_
    · intro u _
      rw [setPhase_eligible, setReady_eligible]
    · intro u _
      rw [setPhase_request, setReady_request]
      rfl
    · intro u _ hu
      rw [setPhase_ready, setReady_ready, setPhase_phase, setReady_phase]
      split
      · exact .inr Phase.noConfusion
      · exact hu
  | enter t _ _ hmem hfree => exact enter hmem hfree
  | advance t _ _ _ _ => exact wake lim _
  | leave t ending _ _ _ => exact (wake lim _).setPhase Phase.noConfusion
  | gone t ending _ _ _ => exact ha.setPhase Phase.noConfusion
  | release t bytes _ _ => exact wake lim _
  | shrink t held bytes _ _ _ _ _ => exact wake lim _
  | grow t held bytes _ _ _ _ _ hroom => exact grow hroom

end Alert

/-! ## Every run -/

theorem alert_run {actions : List Action}
    (hrun : Machine.run (State.step lim) .start actions = some s) : Queued s ∧ Alert lim s :=
  Machine.run_invariant (I := fun s => Queued s ∧ Alert lim s)
    (fun _ _ _ hs h => ⟨hs.1.move (step_move h), hs.2.move hs.1 (step_move h)⟩)
    ⟨.start, Alert.of_none (by simp [State.start])⟩ hrun

/-- In every run, the oldest waiter with a free slot whose bytes fit has a token,
or is past its wait and about to check again or to leave the queue. -/
theorem no_lost_wakeup (lim : Limits) (actions : List Action) (s : State)
    (hrun : Machine.run (State.step lim) .start actions = some s) (t : Nat)
    (holdest : s.waiters.find? (s.eligible lim) = some t)
    (hfits : s.bytesFull lim (s.request t) = false) :
    s.ready t = true ∨ s.phase t = .trying ∨ ∃ ending, s.phase t = .leaving ending := by
  obtain ⟨hqueued, halert⟩ := alert_run hrun
  have hwaiting := hqueued.inside t (mem_of_find?_eq_some holdest)
  rcases halert t holdest hfits with hready | hawake
  · exact .inl hready
  refine .inr ?_
  cases hphase : s.phase t with
  | trying => exact .inl rfl
  | sleeping => exact absurd hphase hawake
  | leaving ending => exact .inr ⟨ending, rfl⟩
  | admitted bytes => cases hphase ▸ hwaiting
  | ended ending => cases hphase ▸ hwaiting

def oneSlot : Limits := ⟨1, 100, 1, 100, 1, 1000⟩

/-- A call waits for the slot of another one, which is released. -/
def handOver : List Action := [.call ⟨60, 10, true, false, true, true⟩, .check 0,
  .call ⟨70, 20, true, false, true, true⟩, .check 1, .release 0]

/-- After a release, the waiter has its token. -/
theorem no_lost_wakeup_release :
    ∃ s, Machine.run (State.step oneSlot) .start handOver = some s ∧
      s.waiters.find? (s.eligible oneSlot) = some 1 ∧ s.phase 1 = .sleeping ∧
      (s.ready 1 = true ∨ s.phase 1 = .trying ∨ ∃ ending, s.phase 1 = .leaving ending) := by
  have hlast : (Machine.run (State.step oneSlot) .start handOver).map (fun s =>
      (s.waiters.find? (s.eligible oneSlot), s.bytesFull oneSlot (s.request 1), s.phase 1)) =
      some (some 1, false, .sleeping) := by decide
  obtain ⟨s, hrun, heq⟩ := Option.map_eq_some_iff.mp hlast
  simp only [Prod.mk.injEq] at heq
  obtain ⟨holdest, hfits, hphase⟩ := heq
  exact ⟨s, hrun, holdest, hphase, no_lost_wakeup oneSlot handOver s hrun 1 holdest hfits⟩

/-- A waiter that took its token and then found its context done is the oldest
admissible one, without a token and not about to check again. -/
theorem canceled_waiter_without_token :
    ∃ s, Machine.run (State.step oneSlot) .start (handOver ++ [.wakeUp 1, .cancel 1]) = some s ∧
      s.waiters.find? (s.eligible oneSlot) = some 1 ∧ s.bytesFull oneSlot (s.request 1) = false ∧
      s.ready 1 = false ∧ s.phase 1 = .leaving .canceled := by
  have hlast : (Machine.run (State.step oneSlot) .start (handOver ++ [.wakeUp 1, .cancel 1])).map
      (fun s => (s.waiters.find? (s.eligible oneSlot), s.bytesFull oneSlot (s.request 1),
        s.ready 1, s.phase 1)) = some (some 1, false, false, .leaving .canceled) := by decide
  obtain ⟨s, hrun, heq⟩ := Option.map_eq_some_iff.mp hlast
  simp only [Prod.mk.injEq] at heq
  exact ⟨s, hrun, heq⟩

theorem State.check_oldest (hlt : t < s.calls) (hphase : s.phase t = .trying)
    (holdest : s.waiters.find? (s.eligible lim) = some t)
    (hfits : s.bytesFull lim (s.request t) = false) :
    ∃ s', s.step lim (.check t) = some s' ∧ s'.phase t = .admitted (s.request t).encodedBytes := by
  refine ⟨s.check lim t, if_pos ⟨hlt, hphase⟩, ?_⟩
  have hslots : s.admissionSlotsFull lim (s.request t) = false := by
    simpa [eligible] using find?_some holdest
  have hmem : t ∈ (s.occupy t).waiters := mem_of_find?_eq_some holdest
  have hstart : s.check lim t = (s.occupy t).removeAdmissionWaiter lim t := by
    simp [check, hslots, hfits, older_of_find holdest]
    rfl
  rw [hstart, removeAdmissionWaiter, if_pos hmem, wakeAdmissionWaiter_phase]
  exact dequeue_phase.trans (occupy_phase.trans (if_pos rfl))

/-- A waiter that could be admitted is at most two steps of its own away from it,
unless it is leaving the queue. -/
theorem oldest_waiter_advances (lim : Limits) (actions : List Action) (s : State)
    (hrun : Machine.run (State.step lim) .start actions = some s) (t : Nat)
    (holdest : s.waiters.find? (s.eligible lim) = some t)
    (hfits : s.bytesFull lim (s.request t) = false)
    (hstays : ∀ ending, s.phase t ≠ .leaving ending) :
    ∃ own s', own <:+ [.wakeUp t, .check t] ∧ Machine.run (State.step lim) s own = some s' ∧
      s'.phase t = .admitted (s.request t).encodedBytes := by
  obtain ⟨hqueued, halert⟩ := alert_run hrun
  have hmem := mem_of_find?_eq_some holdest
  have hlt := hqueued.known t hmem
  have hwaiting := hqueued.inside t hmem
  cases hphase : s.phase t with
  | trying =>
    obtain ⟨s', hcheck, hadmitted⟩ := check_oldest hlt hphase holdest hfits
    exact ⟨[.check t], s', suffix_cons _ _, Machine.run_cons.mpr ⟨s', hcheck, rfl⟩, hadmitted⟩
  | sleeping =>
    have hready := (halert t holdest hfits).resolve_right (· hphase)
    have hwake : s.step lim (.wakeUp t) = _ := if_pos ⟨hlt, hphase, hready⟩
    obtain ⟨s', hcheck, hadmitted⟩ :=
      @check_oldest lim ((s.setReady t false).setPhase t .trying) t hlt (by simp [setPhase_phase])
        (by simpa using holdest) (by rw [setPhase_request, setReady_request]; exact hfits)
    rw [setPhase_request, setReady_request] at hadmitted
    exact ⟨_, s', suffix_rfl, Machine.run_cons.mpr
      ⟨_, hwake, Machine.run_cons.mpr ⟨s', hcheck, rfl⟩⟩, hadmitted⟩
  | leaving ending => exact absurd hphase (hstays ending)
  | admitted bytes => cases hphase ▸ hwaiting
  | ended ending => cases hphase ▸ hwaiting

/-- The waiter that a release has woken. -/
theorem oldest_waiter_advances_release :
    ∃ s own s', Machine.run (State.step oneSlot) .start handOver = some s ∧
      own <:+ [.wakeUp 1, .check 1] ∧ Machine.run (State.step oneSlot) s own = some s' ∧
      s'.phase 1 = .admitted 70 := by
  have hrun : Machine.run (State.step oneSlot) .start handOver = some _ := rfl
  have hasleep : ∀ ending, Phase.sleeping ≠ .leaving ending := nofun
  obtain ⟨own, s', h⟩ :=
    oldest_waiter_advances oneSlot handOver _ hrun 1 (by decide) (by decide) hasleep
  exact ⟨_, own, s', hrun, h⟩

end Sink.Admission
