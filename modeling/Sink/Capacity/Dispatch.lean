import Sink.Capacity.Accounting

/-!
# What dispatch does

`dispatch` grants waiters in two passes over the queue, and every grant moves
the limits of the others. `Granted` collects what any sequence of grants
leaves alone. That a single pass misses nobody rests on `blocked_grant`: a
grant never unblocks a waiter, because it fills the pool and can only take
the reserve away from others.
-/

namespace Sink.Capacity

open List Function

namespace Pool

variable {p : Pool}
variable {ws kept : List Waiter} {w : Waiter}

/-- Allocations of existing leases that ask for something. -/
def Valid (p : Pool) (ws : List Waiter) : Prop := ∀ w ∈ ws, w.lease < p.leases ∧ 0 < w.bytes

theorem Valid.sublist {ws' : List Waiter} (h : p.Valid ws) (hsub : ws'.Sublist ws) :
    p.Valid ws' := fun w hw => h w (hsub.subset hw)

theorem Good.withWaiters (h : p.Good) (ws : List Waiter) : ({ p with waiters := ws }).Good :=
  ⟨⟨h.owned, h.used, h.opaqueBytes, h.ownerBytes, h.nonneg⟩,
    ⟨h.normal_nonneg, h.normal_le, h.used_le, h.burst_iff, h.burst_bound⟩⟩

/-! ## Sequences of grants -/

/-- `p'` is `p` after waiters of `ws` were granted and `kept` were not. -/
structure Granted (ws kept : List Waiter) (p p' : Pool) : Prop where
  sublist : kept.Sublist ws
  owners : p'.owners = p.owners
  leases : p'.leases = p.leases
  maxWaiters : p'.maxWaiters = p.maxWaiters
  lease : ∀ l, p'.lease l = { p.lease l with bytes := (p'.lease l).bytes }
  idle : ∀ l, (∀ w ∈ ws, w.lease ≠ l) → p'.lease l = p.lease l
  other : ∀ call, (∀ w ∈ ws, w.call ≠ call) → p'.granted call = p.granted call
  still : (ws.map (·.call)).Nodup → ∀ w ∈ kept, p'.granted w.call = p.granted w.call

theorem Granted.refl (ws : List Waiter) (p : Pool) : Granted ws ws p p :=
  ⟨.refl _, rfl, rfl, rfl, fun _ => rfl, fun _ _ => rfl, fun _ _ => rfl, fun _ _ _ => rfl⟩

variable {kept' : List Waiter}

theorem Granted.trans {p₁ p₂ : Pool} (h₁ : Granted ws kept p p₁) (h₂ : Granted kept kept' p₁ p₂) :
    Granted ws kept' p p₂ where
  sublist := h₂.sublist.trans h₁.sublist
  owners := h₂.owners.trans h₁.owners
  leases := h₂.leases.trans h₁.leases
  maxWaiters := h₂.maxWaiters.trans h₁.maxWaiters
  lease l := by
    rw [h₂.lease l, h₁.lease l]
  idle l hl := by
    rw [h₂.idle l fun w hw => hl w (h₁.sublist.subset hw), h₁.idle l hl]
  other call hcall := by
    rw [h₂.other call fun w hw => hcall w (h₁.sublist.subset hw), h₁.other call hcall]
  still hnd w hw := by
    have hnd' := (h₁.sublist.map (·.call)).nodup hnd
    rw [h₂.still hnd' w hw, h₁.still hnd w (h₂.sublist.subset hw)]

variable {p' : Pool}

theorem Granted.withWaiters (h : Granted ws kept p p') (queue : List Waiter) :
    Granted ws kept p { p' with waiters := queue } :=
  ⟨h.sublist, h.owners, h.leases, h.maxWaiters, h.lease, h.idle, h.other, h.still⟩

theorem Granted.cons (h : Granted ws kept p p') : Granted (w :: ws) (w :: kept) p p' where
  sublist := h.sublist.cons_cons w
  owners := h.owners
  leases := h.leases
  maxWaiters := h.maxWaiters
  lease := h.lease
  idle l hl := h.idle l (forall_mem_cons.mp hl).2
  other call hcall := h.other call (forall_mem_cons.mp hcall).2
  still hnd w' hw' := by
    rw [map_cons, nodup_cons] at hnd
    rcases mem_cons.mp hw' with rfl | hw'
    · exact h.other _ fun w hw heq => hnd.1 (heq ▸ mem_map_of_mem hw)
    · exact h.still hnd.2 w' hw'

theorem Granted.grant (h : Granted ws kept (p.grant w) p') : Granted (w :: ws) kept p p' where
  sublist := h.sublist.trans (sublist_cons_self w ws)
  owners := h.owners
  leases := h.leases
  maxWaiters := h.maxWaiters
  lease l := by
    rw [h.lease l]
    rw [grant_lease]
  idle l hl := by
    rw [h.idle l fun w' hw' => hl w' (mem_cons_of_mem _ hw')]
    rw [grant_lease, if_neg (Ne.symm (hl w mem_cons_self))]
    simp
  other call hcall := by
    rw [h.other call fun w' hw' => hcall w' (mem_cons_of_mem _ hw')]
    exact update_of_ne (Ne.symm (hcall w mem_cons_self)) _ _
  still hnd w' hw' := by
    rw [map_cons, nodup_cons] at hnd
    rw [h.still hnd.2 w' hw']
    have hne : w'.call ≠ w.call := fun heq =>
      hnd.1 (heq ▸ mem_map_of_mem (h.sublist.subset hw'))
    exact update_of_ne hne _ _

/-! ## One pass -/

theorem Good.limit_grant_le (h : p.Good) (hw : 0 < w.bytes) (hfit : p.blocked w = false)
    (phase : Phase) (o : Nat) : (p.grant w).limit phase o ≤ p.limit phase o := by
  have hnormal := h.normal_le
  by_cases hcase : phase = .response ∧ (p.burstOwner = none ∨ p.burstOwner = some o)
  · unfold limit
    rw [grant_total, grant_normal]
    split <;> omega
  · -- the reserve is somebody else's already and stays so
    have hlimit : p.limit phase o = p.normal := if_neg hcase
    rw [hlimit]
    unfold limit
    rw [grant_total, grant_normal, if_neg]
    rintro ⟨rfl, hburst⟩
    refine hcase ⟨rfl, ?_⟩
    rw [grant_burstOwner] at hburst
    rcases (h.fits hw hfit).2 with hnone | hown
    · exact .inl hnone
    · rw [hown] at hburst ⊢
      rwa [ite_self] at hburst

variable {w' : Waiter}

theorem Good.blocked_grant (h : p.Good) (hw : 0 < w.bytes) (hfit : p.blocked w = false)
    (hblocked : p.blocked w' = true) : (p.grant w).blocked w' = true := by
  have hle := h.limit_grant_le hw hfit w'.phase (p.ownerOf w'.lease)
  have hlt := of_decide_eq_true hblocked
  refine decide_eq_true ?_
  rw [grant_ownerOf, grant_used]
  omega

theorem pass_cons_grant {phase : Phase} (hphase : w.phase = phase) (hfit : p.blocked w = false)
    (ws : List Waiter) : pass phase (w :: ws) p = pass phase ws (p.grant w) := by
  rw [pass, if_pos ⟨hphase, by simp [hfit]⟩]

theorem pass_cons_keep {phase : Phase} (hkeep : ¬ (w.phase = phase ∧ p.blocked w = false))
    (ws : List Waiter) :
    pass phase (w :: ws) p = (w :: (pass phase ws p).1, (pass phase ws p).2) := by
  rw [pass, if_neg (by simpa using hkeep)]

/-- A pass grants some waiters and keeps the books. -/
theorem Good.pass (phase : Phase) (h : p.Good) (hv : p.Valid ws) :
    (pass phase ws p).2.Good ∧ Granted ws (pass phase ws p).1 p (pass phase ws p).2 := by
  induction ws generalizing p with
  | nil => exact ⟨h, .refl [] p⟩
  | cons w ws ih =>
    obtain ⟨hl, hw⟩ := hv w mem_cons_self
    have hrest : p.Valid ws := hv.sublist (sublist_cons_self w ws)
    by_cases hcase : w.phase = phase ∧ p.blocked w = false
    · rw [pass_cons_grant hcase.1 hcase.2]
      obtain ⟨hgood, hgranted⟩ := ih (h.grant hl hw hcase.2) hrest
      exact ⟨hgood, hgranted.grant⟩
    · rw [pass_cons_keep hcase]
      obtain ⟨hgood, hgranted⟩ := ih h hrest
      exact ⟨hgood, hgranted.cons⟩

theorem Good.pass_blocked (phase : Phase) (h : p.Good) (hv : p.Valid ws)
    (hblocked : p.blocked w' = true) : (Pool.pass phase ws p).2.blocked w' = true := by
  induction ws generalizing p with
  | nil => exact hblocked
  | cons w ws ih =>
    obtain ⟨hl, hw⟩ := hv w mem_cons_self
    have hrest : p.Valid ws := hv.sublist (sublist_cons_self w ws)
    by_cases hcase : w.phase = phase ∧ p.blocked w = false
    · rw [pass_cons_grant hcase.1 hcase.2]
      exact ih (h.grant hl hw hcase.2) hrest (h.blocked_grant hw hcase.2 hblocked)
    · rw [pass_cons_keep hcase]
      exact ih h hrest hblocked

/-- Whoever of the phase a pass leaves in the queue does not fit afterwards. -/
theorem Good.pass_kept (phase : Phase) (h : p.Good) (hv : p.Valid ws)
    (hw' : w' ∈ (Pool.pass phase ws p).1) (hphase : w'.phase = phase) :
    (Pool.pass phase ws p).2.blocked w' = true := by
  induction ws generalizing p with
  | nil => cases hw'
  | cons w ws ih =>
    obtain ⟨hl, hw⟩ := hv w mem_cons_self
    have hrest : p.Valid ws := hv.sublist (sublist_cons_self w ws)
    by_cases hcase : w.phase = phase ∧ p.blocked w = false
    · rw [pass_cons_grant hcase.1 hcase.2] at hw' ⊢
      exact ih (h.grant hl hw hcase.2) hrest hw'
    rw [pass_cons_keep hcase] at hw' ⊢
    rcases mem_cons.mp hw' with rfl | hw'
    · have hblocked : p.blocked w' = true := by simpa [hphase] using hcase
      exact h.pass_blocked phase hrest hblocked
    · exact ih h hrest hw'

theorem pass_append (phase : Phase) (h : ∀ w ∈ ws, w.phase = phase → p.blocked w = true)
    (rest : List Waiter) :
    pass phase (ws ++ rest) p = (ws ++ (pass phase rest p).1, (pass phase rest p).2) := by
  induction ws with
  | nil => rfl
  | cons w ws ih =>
    have hkeep : ¬ (w.phase = phase ∧ p.blocked w = false) := by
      rintro ⟨hphase, hfit⟩
      rw [h w mem_cons_self hphase] at hfit
      cases hfit
    rw [cons_append, pass_cons_keep hkeep, ih fun w' hw' => h w' (mem_cons_of_mem _ hw')]
    rfl

/-! ## Dispatch -/

def afterResponses (p : Pool) : Pool :=
  { (pass .response p.waiters p).2 with waiters := (pass .response p.waiters p).1 }

theorem dispatch_eq : p.dispatch =
    if p.afterResponses.waiters.any fun w => w.phase == .response then p.afterResponses
    else { (pass .request p.afterResponses.waiters p.afterResponses).2 with
      waiters := (pass .request p.afterResponses.waiters p.afterResponses).1 } := rfl

theorem dispatch_of_responses {q : Pool} (hpass : pass .response p.waiters p = (kept, q))
    (hany : ∃ w ∈ kept, w.phase = .response) : p.dispatch = { q with waiters := kept } := by
  have hafter : p.afterResponses = { q with waiters := kept } := by
    unfold afterResponses
    rw [hpass]
  obtain ⟨w, hw, hphase⟩ := hany
  rw [dispatch_eq, hafter, if_pos]
  exact any_eq_true.mpr ⟨w, hw, by simp [hphase]⟩

theorem dispatch_of_requests {q q' : Pool} (hpass : pass .response p.waiters p = (kept, q))
    (hnone : ∀ w ∈ kept, w.phase ≠ .response)
    (hpass' : pass .request kept { q with waiters := kept } = (kept', q')) :
    p.dispatch = { q' with waiters := kept' } := by
  have hafter : p.afterResponses = { q with waiters := kept } := by
    unfold afterResponses
    rw [hpass]
  rw [dispatch_eq, hafter, if_neg, hpass']
  intro hany
  obtain ⟨w, hw, hphase⟩ := any_eq_true.mp hany
  exact hnone w hw (by simpa using hphase)

theorem Good.dispatch (h : p.Good) (hv : p.Valid p.waiters) :
    p.dispatch.Good ∧ Granted p.waiters p.dispatch.waiters p p.dispatch := by
  obtain ⟨hgood, hgranted⟩ := h.pass .response hv
  have hgood' : p.afterResponses.Good := hgood.withWaiters _
  have hgranted' : Granted p.waiters p.afterResponses.waiters p p.afterResponses :=
    hgranted.withWaiters _
  rw [dispatch_eq]
  split
  · exact ⟨hgood', hgranted'⟩
  have hv' : p.afterResponses.Valid p.afterResponses.waiters := by
    intro w hw
    rw [hgranted'.leases]
    exact hv w (hgranted'.sublist.subset hw)
  obtain ⟨hgood₂, hgranted₂⟩ := hgood'.pass .request hv'
  exact ⟨hgood₂.withWaiters _, (hgranted'.trans hgranted₂).withWaiters _⟩

theorem Good.dispatch_blocked (h : p.Good) (hv : p.Valid p.waiters) (hw : w ∈ p.dispatch.waiters)
    (hphase : w.phase = .response) : p.dispatch.blocked w = true := by
  rw [dispatch_eq] at hw ⊢
  split
  · rename_i hany
    rw [if_pos hany] at hw
    exact h.pass_kept .response hv hw hphase
  · rename_i hnone
    rw [if_neg hnone] at hw
    obtain ⟨hgood, hgranted⟩ := h.pass .response hv
    refine absurd (any_eq_true.mpr ⟨w, ?_, by simp [hphase]⟩) hnone
    have hv' : p.afterResponses.Valid p.afterResponses.waiters := by
      intro w' hw'
      show w'.lease < (Pool.pass .response p.waiters p).2.leases ∧ _
      rw [hgranted.leases]
      exact hv w' (hgranted.sublist.subset hw')
    exact ((hgood.withWaiters _).pass .request hv').2.sublist.subset hw

/-- Nobody in the queue could be granted, and only responses wait. -/
def Settled (p : Pool) : Prop := ∀ w ∈ p.waiters, w.phase = .response ∧ p.blocked w = true

theorem Good.dispatch_settled (h : p.Good) (hv : p.Valid p.waiters)
    (hphase : ∀ w ∈ p.waiters, w.phase = .response) : p.dispatch.Settled := by
  intro w hw
  have hw' := hphase w ((h.dispatch hv).2.sublist.subset hw)
  exact ⟨hw', h.dispatch_blocked hv hw hw'⟩

/-! ## Joining the queue -/

def waiterOf (call : Nat) (c : GrowCall) : Waiter := ⟨call, c.lease, c.bytes, c.phase⟩

/-- The pool with a new waiter that is not queued yet. -/
def announce (p : Pool) (call : Nat) : Pool :=
  { p with
    granted := update p.granted call false
    ready := update p.ready call false }

/-- Dispatch when only the last of the queue may fit: it stays, or it is
granted and nobody else is. Anything but a response is granted only if nobody
is before it. -/
theorem dispatch_last (hqueue : p.waiters = ws ++ [w])
    (hws : ∀ w' ∈ ws, w'.phase = .response ∧ p.blocked w' = true) :
    (p.dispatch = p ∧ (p.blocked w = true ∨ w.phase ≠ .response)) ∨
      (p.dispatch = { p.grant w with waiters := ws } ∧ p.blocked w = false ∧
        (w.phase ≠ .response → ws = [])) := by
  have hskip : pass .response p.waiters p =
      (ws ++ (pass .response [w] p).1, (pass .response [w] p).2) := by
    rw [hqueue]
    exact pass_append .response (fun w' hw' _ => (hws w' hw').2) [w]
  by_cases hgrant : w.phase = .response ∧ p.blocked w = false
  · refine .inr ⟨?_, hgrant.2, fun h => absurd hgrant.1 h⟩
    have hpass : pass .response p.waiters p = (ws, p.grant w) := by
      rw [hskip, pass_cons_grant hgrant.1 hgrant.2]
      simp [pass]
    by_cases hnil : ws = []
    · subst hnil
      have hlast : pass .request [] { p.grant w with waiters := [] } =
          ([], { p.grant w with waiters := [] }) := rfl
      have hdispatch := dispatch_of_requests hpass (by simp) hlast
      exact hdispatch
    · obtain ⟨w', hw'⟩ := exists_mem_of_ne_nil _ hnil
      exact dispatch_of_responses hpass ⟨w', hw', (hws w' hw').1⟩
  · have hpass : pass .response p.waiters p = (p.waiters, p) := by
      rw [hskip, pass_cons_keep hgrant, hqueue]
      rfl
    by_cases hany : ∃ w' ∈ p.waiters, w'.phase = .response
    · refine .inl ⟨dispatch_of_responses hpass hany, ?_⟩
      by_cases hresp : w.phase = .response
      · exact .inl (by simpa [hresp] using hgrant)
      · exact .inr hresp
    · have hnone : ∀ w' ∈ p.waiters, w'.phase ≠ .response := by simpa using hany
      have hnil : ws = [] := by
        refine eq_nil_iff_forall_not_mem.mpr fun w' hw' => ?_
        exact hnone w' (by simp [hqueue, hw']) (hws w' hw').1
      have hresp : w.phase ≠ .response := hnone w (by simp [hqueue])
      rw [hnil, nil_append] at hqueue
      by_cases hreq : w.phase = .request ∧ p.blocked w = false
      · refine .inr ⟨?_, hreq.2, fun _ => hnil⟩
        have hlast : pass .request p.waiters p = ([], p.grant w) := by
          rw [hqueue, pass_cons_grant hreq.1 hreq.2]
          rfl
        rw [dispatch_of_requests hpass hnone hlast, hnil]
      · refine .inl ⟨?_, .inr hresp⟩
        have hlast : pass .request p.waiters p = (p.waiters, p) := by
          rw [hqueue, pass_cons_keep hreq]
          rfl
        exact dispatch_of_requests hpass hnone hlast

end Pool

end Sink.Capacity
