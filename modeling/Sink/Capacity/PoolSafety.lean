import Sink.Capacity.PoolRuns

/-!
# Safety of the memory pool

What holds of a pool made by `new` whatever its callers do: its counters are
the sums of the leases, all bytes beyond ordinary capacity belong to one
owner, a `Grow` that fails leaves neither a waiter nor bytes, and nobody who
could be granted is left in the queue.
-/

namespace Sink.Capacity

open Function Option

/-- The counters of a pool against its leases and owners. -/
structure Accounted (p : Pool) : Prop where
  used_leases : p.used = ∑ l ∈ Finset.range p.leases, (p.lease l).bytes
  used_owners : p.used = ∑ o ∈ Finset.range p.owners, p.ownerBytes o
  lease_nonneg : ∀ l < p.leases, 0 ≤ (p.lease l).bytes
  owner_nonneg : ∀ o < p.owners, 0 ≤ p.ownerBytes o
  opaqueBytes : p.opaqueBytes =
    ∑ l ∈ Finset.range p.leases with (p.lease l).isOpaque = true, (p.lease l).bytes
  used_nonneg : 0 ≤ p.used
  used_le : p.used ≤ p.total
  burst_iff : p.burstOwner ≠ none ↔ p.used > p.normal
  burst_bound : ∀ o, p.burstOwner = some o → p.used - p.ownerBytes o ≤ p.normal

theorem Pool.Good.accounted {p : Pool} (h : p.Good) : Accounted p where
  used_leases := h.used
  used_owners := h.used_owners
  lease_nonneg := h.nonneg
  owner_nonneg o _ := h.ownerBytes_nonneg o
  opaqueBytes := by
    rw [Finset.sum_filter]
    exact h.opaqueBytes
  used_nonneg := h.used_nonneg
  used_le := h.used_le
  burst_iff := by
    rw [← isSome_iff_ne_none]
    exact h.burst_iff
  burst_bound := h.burst_bound

namespace State

variable {s s' : State} {a : Action} {c : Nat}

/-! ## How a call ends -/

/-- Only its own two critical sections move a call. -/
theorem step_call (hstep : s.step a = some s') (hc : c < s.calls) (hmoved : s'.call c ≠ s.call c) :
    (∃ ctxErr, a = .enter c ctxErr) ∨ ∃ waitDone ctxErr, a = .resume c waitDone ctxErr := by
  cases a with
  | newOwner =>
    cases hstep
    exact absurd rfl hmoved
  | enter call ctxErr =>
    obtain ⟨-, heq⟩ := ite_none_right_eq_some.mp hstep
    cases heq
    by_cases hcall : c = call
    · exact .inl ⟨ctxErr, by rw [hcall]⟩
    · exact absurd (update_of_ne hcall _ _) hmoved
  | resume call waitDone ctxErr =>
    obtain ⟨-, heq⟩ := ite_none_right_eq_some.mp hstep
    cases heq
    by_cases hcall : c = call
    · exact .inr ⟨waitDone, ctxErr, by rw [hcall]⟩
    · exact absurd (update_of_ne hcall _ _) hmoved
  | grow l bytes phase =>
    obtain ⟨-, heq⟩ := ite_none_right_eq_some.mp hstep
    cases heq
    exact absurd (update_of_ne (ne_of_lt hc) _ _) hmoved
  | _ =>
    obtain ⟨-, heq⟩ := ite_none_right_eq_some.mp hstep
    cases heq
    exact absurd rfl hmoved

theorem settle_lease_bytes (s : State) (call : Nat) (pool : Pool) (progress : Progress) (l : Nat) :
    ((s.settle call pool progress).pool.lease l).bytes = (pool.lease l).bytes :=
  Pool.setLease_field (f := fun lease => { lease with growing := progress == .waiting })
    Lease.bytes (fun _ => rfl) (s.call call).lease l

theorem settle_progress (s : State) (call : Nat) (pool : Pool) (progress : Progress) :
    ((s.settle call pool progress).call call).progress = progress := by
  show (update s.call call _ call).progress = progress
  rw [update_self]

/-- What a lease holds for a call that has not returned: the bytes of its
grant, or what a concurrent `Shrink` left of them. -/
def charged (s : State) (c : Nat) : Int :=
  if (s.call c).progress = .waiting ∧ s.pool.granted c = true then
    min (s.call c).bytes (s.pool.lease (s.call c).lease).bytes
  else 0

/-- A call that fails gives back what its lease held for it. -/
theorem Inv.failed (h : s.Inv) (hstep : s.step a = some s') (hc : c < s.calls) {err : GoError}
    (hbefore : ∀ e, (s.call c).progress ≠ .done e)
    (hafter : (s'.call c).progress = .done (some err)) :
    (s'.pool.lease (s.call c).lease).bytes =
      (s.pool.lease (s.call c).lease).bytes - s.charged c := by
  have hmoved : s'.call c ≠ s.call c := fun heq => hbefore _ (heq ▸ hafter)
  rcases step_call hstep hc hmoved with ⟨ctxErr, rfl⟩ | ⟨waitDone, ctxErr, rfl⟩
  · obtain ⟨⟨-, hprog, -⟩, heq⟩ := ite_none_right_eq_some.mp hstep
    cases heq
    obtain ⟨hentered, -⟩ := h.entered hprog ctxErr
    rw [settle_progress] at hafter
    rw [settle_lease_bytes]
    have hcharged : s.charged c = 0 := by
      unfold charged
      rw [hprog]
      exact if_neg fun h => nomatch h.1
    rw [hafter] at hentered
    generalize (s.pool.enter c (s.call c) ctxErr).1 = p' at hentered ⊢
    cases hentered with
    | failed hp =>
      rcases hp with rfl | rfl
      · omega
      · show (s.pool.lease _).bytes = _
        omega
  · obtain ⟨⟨-, hprog, -⟩, heq⟩ := ite_none_right_eq_some.mp hstep
    cases heq
    obtain ⟨-, -, -, hfail⟩ := h.ok.resume (h.lease c hc) (h.waits c hc hprog).1
      (h.resumed hc hprog) waitDone ctxErr
    rw [settle_progress] at hafter
    rw [settle_lease_bytes, hfail (by rw [Progress.done.inj hafter]; rfl)]
    unfold charged Pool.refund
    simp only [hprog, true_and]

/-- A request is granted only when nobody waits and ordinary capacity has
room for it. -/
theorem Inv.request_granted (h : s.Inv) (hstep : s.step a = some s') (hc : c < s.calls)
    (hphase : (s.call c).phase = .request) (hpos : 0 < (s.call c).bytes)
    (hbefore : (s.call c).progress ≠ .done none) (hafter : (s'.call c).progress = .done none) :
    s.pool.waiters = [] ∧ s.pool.used + (s.call c).bytes ≤ s.pool.normal := by
  have hmoved : s'.call c ≠ s.call c := fun heq => hbefore (heq ▸ hafter)
  rcases step_call hstep hc hmoved with ⟨ctxErr, rfl⟩ | ⟨waitDone, ctxErr, rfl⟩
  · obtain ⟨⟨-, hprog, -⟩, heq⟩ := ite_none_right_eq_some.mp hstep
    cases heq
    obtain ⟨hentered, -⟩ := h.entered hprog ctxErr
    rw [settle_progress] at hafter
    rw [hafter] at hentered
    generalize (s.pool.enter c (s.call c) ctxErr).1 = p' at hentered
    cases hentered with
    | nothing hzero => omega
    | granted _ hfit _ hfirst =>
      refine ⟨hfirst (by simp [hphase]), ?_⟩
      have hlimit : s.pool.limit (s.call c).phase (s.pool.ownerOf (s.call c).lease) =
          s.pool.normal := if_neg fun h => by simp [hphase] at h
      have hfits := (h.ok.good.fits (w := Pool.waiterOf c (s.call c)) hpos hfit).1
      exact hfits.trans_eq hlimit
  · -- a request never waits
    obtain ⟨⟨-, hprog, -⟩, -⟩ := ite_none_right_eq_some.mp hstep
    rw [(h.waits c hc hprog).2] at hphase
    cases hphase

end State

/-! ## Any interleaving -/

section Runs

variable {opts : Options} {pool : Pool} {actions : List Action} {s : State}

/-- The books of a pool are right at every moment, a failed `Grow` leaves
nothing behind, and a pool whose leases are all closed is empty. -/
theorem pool_accounted (hnew : new opts = .ok pool)
    (hrun : Machine.run State.step (.start pool) actions = some s) :
    Accounted s.pool ∧
      (∀ c err, (s.call c).progress = .done (some err) → ∀ w ∈ s.pool.waiters, w.call ≠ c) ∧
      (∀ a s', s.step a = some s' → ∀ c < s.calls, ∀ err,
        (∀ e, (s.call c).progress ≠ .done e) → (s'.call c).progress = .done (some err) →
        (s'.pool.lease (s.call c).lease).bytes =
          (s.pool.lease (s.call c).lease).bytes - s.charged c) ∧
      ((∀ l < s.pool.leases, (s.pool.lease l).closed = true) →
        s.pool.used = 0 ∧ s.pool.opaqueBytes = 0 ∧ s.pool.burstOwner = none) := by
  have hinv := run_inv hnew hrun
  have hgood := hinv.ok.good
  refine ⟨hgood.accounted, ?_, ?_, ?_⟩
  · intro c err hdone w hw hcall
    rw [← hcall, (hinv.waiter w hw).2] at hdone
    cases hdone
  · exact fun a s' hstep c hc err hbefore hafter => hinv.failed hstep hc hbefore hafter
  · intro hclosed
    have hempty : ∀ l < s.pool.leases, (s.pool.lease l).bytes = 0 :=
      fun l hl => hinv.ok.empty l hl (hclosed l hl)
    have hused : s.pool.used = 0 := by
      rw [hgood.used]
      exact Ledger.tally_eq_zero hempty
    refine ⟨hused, ?_, ?_⟩
    · rw [hgood.opaqueBytes]
      exact Ledger.tally_eq_zero fun l hl => by rw [hempty l hl, ite_self]
    · cases hburst : s.pool.burstOwner with
      | none => rfl
      | some o =>
        have hlt := hgood.normal_lt_used hburst
        have hnormal := hgood.normal_nonneg
        omega

/-- A new pool of 1024 bytes, about half of them reserve. -/
def fresh : Pool where
  total := 1024
  normal := 524
  used := 0
  opaqueBytes := 0
  burstOwner := none
  waiters := []
  maxWaiters := 1024
  owners := 0
  ownerBytes := fun _ => 0
  leases := 0
  lease := fun _ => ⟨0, 0, false, false, false⟩
  granted := fun _ => false
  ready := fun _ => false

/-- Two owners: the first has 500 bytes, the second borrows the reserve, and
another response of the first waits for it. -/
def contended : List Action :=
  [.newOwner, .newOwner, .newLease 0, .newLease 1, .newLease 0,
    .grow 0 500 .request, .enter 0 none, .grow 1 400 .response, .enter 1 none,
    .grow 2 200 .response, .enter 2 none]

/-- A waiting response is granted when the borrower shrinks, and gives up at
the same moment. -/
theorem pool_accounted_race :
    ∃ s s', new ⟨1024, 50, 1, 0⟩ = .ok fresh ∧
      Machine.run State.step (.start fresh) (contended ++ [.shrink 1 400]) = some s ∧
      s.pool.granted 2 = true ∧ Accounted s.pool ∧
      s.step (.resume 2 true none) = some s' ∧
      (s'.pool.lease 2).bytes = (s.pool.lease 2).bytes - s.charged 2 := by
  have hnew : new ⟨1024, 50, 1, 0⟩ = .ok fresh := rfl
  have hrun : Machine.run State.step (.start fresh) (contended ++ [.shrink 1 400]) = some _ := rfl
  refine ⟨_, _, hnew, hrun, rfl, (pool_accounted hnew hrun).1, rfl, ?_⟩
  exact (pool_accounted hnew hrun).2.2.1 (.resume 2 true none) _ rfl 2 (by decide) _
    (fun e h => nomatch h) rfl

/-- Nobody in the queue of a pool could be granted, only responses are in it,
and a request is granted only when it is empty. -/
theorem pool_serves_responses_first (hnew : new opts = .ok pool)
    (hrun : Machine.run State.step (.start pool) actions = some s) :
    (∀ w ∈ s.pool.waiters, w.phase = .response ∧
      ¬ w.bytes ≤ (if s.pool.burstOwner = none ∨ s.pool.burstOwner = some (s.pool.ownerOf w.lease)
        then s.pool.total else s.pool.normal) - s.pool.used) ∧
      ∀ a s', s.step a = some s' → ∀ c < s.calls, (s.call c).phase = .request →
        0 < (s.call c).bytes → (s.call c).progress ≠ .done none →
        (s'.call c).progress = .done none →
        (∀ w ∈ s.pool.waiters, w.phase ≠ .response) ∧
          s.pool.used + (s.call c).bytes ≤ s.pool.normal := by
  have hinv := run_inv hnew hrun
  constructor
  · intro w hw
    obtain ⟨hphase, hblocked⟩ := hinv.ok.settled w hw
    refine ⟨hphase, ?_⟩
    have hlt := of_decide_eq_true hblocked
    unfold Pool.limit at hlt
    simp only [hphase, true_and] at hlt
    exact not_le.mpr hlt
  · intro a s' hstep c hc hphase hpos hbefore hafter
    obtain ⟨hnil, hfits⟩ := hinv.request_granted hstep hc hphase hpos hbefore hafter
    exact ⟨fun w hw => by simp [hnil] at hw, hfits⟩

theorem pool_serves_responses_first_waiting :
    ∃ s, new ⟨1024, 50, 1, 0⟩ = .ok fresh ∧
      Machine.run State.step (.start fresh) contended = some s ∧
      s.pool.waiters = [⟨2, 2, 200, .response⟩] ∧
      ∀ w ∈ s.pool.waiters, w.phase = .response ∧
        ¬ w.bytes ≤ (if s.pool.burstOwner = none ∨ s.pool.burstOwner = some (s.pool.ownerOf w.lease)
          then s.pool.total else s.pool.normal) - s.pool.used := by
  have hnew : new ⟨1024, 50, 1, 0⟩ = .ok fresh := rfl
  have hrun : Machine.run State.step (.start fresh) contended = some _ := rfl
  exact ⟨_, hnew, hrun, rfl, (pool_serves_responses_first hnew hrun).1⟩

/-- A growth that is not larger than the reserve waits for one owner only: somebody
is in the reserve, and without the bytes of that owner it would fit. -/
theorem waiter_has_borrower (hnew : new opts = .ok pool)
    (hrun : Machine.run State.step (.start pool) actions = some s) {w : Waiter}
    (hw : w ∈ s.pool.waiters) (hsmall : w.bytes ≤ s.pool.total - s.pool.normal) :
    ∃ o, s.pool.burstOwner = some o ∧
      s.pool.used - s.pool.ownerBytes o + w.bytes ≤ s.pool.total := by
  have hok := (run_inv hnew hrun).ok
  cases hburst : s.pool.burstOwner with
  | some o =>
    have hrest := hok.good.burst_bound o hburst
    exact ⟨o, rfl, by omega⟩
  | none =>
    -- then the whole reserve is free
    obtain ⟨hphase, hblocked⟩ := hok.settled w hw
    have hlt := of_decide_eq_true hblocked
    have hused := hok.good.used_le_normal hburst
    rw [Pool.limit, if_pos ⟨hphase, .inl hburst⟩] at hlt
    omega

theorem waiter_has_borrower_contended :
    ∃ s o, new ⟨1024, 50, 1, 0⟩ = .ok fresh ∧
      Machine.run State.step (.start fresh) contended = some s ∧ s.pool.burstOwner = some o ∧
      s.pool.used - s.pool.ownerBytes o + 200 ≤ s.pool.total := by
  have hnew : new ⟨1024, 50, 1, 0⟩ = .ok fresh := rfl
  have hrun : Machine.run State.step (.start fresh) contended = some _ := rfl
  obtain ⟨o, hborrower⟩ := waiter_has_borrower hnew hrun (.head _) (by decide)
  exact ⟨_, o, hnew, hrun, hborrower⟩

end Runs

end Sink.Capacity
