import Sink.Capacity.Dispatch
import Sink.Lib.Machine

/-!
# Runs of the pool

The invariant of a pool and its callers over any interleaving of critical
sections. `Queue` is what holds of the pool also between a release and the
dispatch that follows it; with `Settled` it holds whenever the mutex is free.
`Linked` ties the queue to the calls that wait in it: since a call holds
`growMu` of its lease while it waits, a lease has one waiter at most, and a
call that gives up leaves none.
-/

namespace Sink.Capacity

open Function List Option

variable {p' : Pool} {progress : Progress}

namespace Pool

variable {p : Pool}
variable {l call : Nat} {c : GrowCall}

/-! ## The queue -/

structure Queue (p : Pool) : Prop where
  good : p.Good
  valid : p.Valid p.waiters
  responses : ∀ w ∈ p.waiters, w.phase = .response
  nodup : (p.waiters.map (·.call)).Nodup
  isOpen : ∀ w ∈ p.waiters, (p.lease w.lease).closed = false
  ungranted : ∀ w ∈ p.waiters, p.granted w.call = false
  /-- A closed lease holds nothing. -/
  empty : ∀ l < p.leases, (p.lease l).closed = true → (p.lease l).bytes = 0

/-- What no function of the pool changes about its leases, and that nobody
joins the queue. -/
structure Shifts (p p' : Pool) : Prop where
  waiters : p'.waiters.Sublist p.waiters
  owners : p'.owners = p.owners
  leases : p'.leases = p.leases
  owner : ∀ l, (p'.lease l).owner = (p.lease l).owner
  growing : ∀ l, (p'.lease l).growing = (p.lease l).growing
  closed : ∀ l, (p.lease l).closed = true → (p'.lease l).closed = true

theorem Shifts.refl (p : Pool) : Shifts p p :=
  ⟨.refl _, rfl, rfl, fun _ => rfl, fun _ => rfl, fun _ h => h⟩

theorem Shifts.trans {p₁ p₂ : Pool} (h₁ : Shifts p p₁) (h₂ : Shifts p₁ p₂) : Shifts p p₂ :=
  ⟨h₂.waiters.trans h₁.waiters, h₂.owners.trans h₁.owners, h₂.leases.trans h₁.leases,
    fun l => (h₂.owner l).trans (h₁.owner l), fun l => (h₂.growing l).trans (h₁.growing l),
    fun l h => h₂.closed l (h₁.closed l h)⟩

theorem Queue.sub (h : p.Queue) (hgood : p'.Good) (hsub : p'.waiters.Sublist p.waiters)
    (hleases : p'.leases = p.leases)
    (hgranted : ∀ w ∈ p'.waiters, p'.granted w.call = p.granted w.call)
    (hopen : ∀ w ∈ p'.waiters, (p'.lease w.lease).closed = (p.lease w.lease).closed)
    (hempty : ∀ l < p.leases, (p'.lease l).closed = true → (p'.lease l).bytes = 0) : p'.Queue where
  good := hgood
  valid w hw := by
    rw [hleases]
    exact h.valid w (hsub.subset hw)
  responses w hw := h.responses w (hsub.subset hw)
  nodup := (hsub.map _).nodup h.nodup
  isOpen w hw := (hopen w hw).trans (h.isOpen w (hsub.subset hw))
  ungranted w hw := (hgranted w hw).trans (h.ungranted w (hsub.subset hw))
  empty l hl := hempty l (hleases ▸ hl)

theorem Queue.dispatch (h : p.Queue) :
    p.dispatch.Queue ∧ p.dispatch.Settled ∧ Shifts p p.dispatch := by
  obtain ⟨hgood, hgranted⟩ := h.good.dispatch h.valid
  have hclosed : ∀ l, (p.dispatch.lease l).closed = (p.lease l).closed := fun l => by
    rw [hgranted.lease l]
  refine ⟨h.sub hgood hgranted.sublist hgranted.leases (hgranted.still h.nodup)
    (fun w _ => hclosed w.lease) ?_, h.good.dispatch_settled h.valid h.responses, ?_⟩
  · intro l hl hc
    rw [hclosed] at hc
    -- nobody waits for a closed lease
    rw [hgranted.idle l fun w hw heq => by simp [← heq, h.isOpen w hw] at hc]
    exact h.empty l hl hc
  · exact ⟨hgranted.sublist, hgranted.owners, hgranted.leases, fun l => by rw [hgranted.lease l],
      fun l => by rw [hgranted.lease l], fun l hc => by rw [hclosed]; exact hc⟩

/-! ## Releasing -/

theorem releaseLocked_eq (p : Pool) (l : Nat) (b : Int) : ∃ burst,
    p.releaseLocked l b = { p.charge l (-b) with burstOwner := burst } := by
  unfold releaseLocked
  dsimp only
  split
  · exact ⟨none, rfl⟩
  · exact ⟨p.burstOwner, rfl⟩

theorem releaseLocked_lease (p : Pool) (l : Nat) (b : Int) (l' : Nat) :
    (p.releaseLocked l b).lease l' =
      { p.lease l' with bytes := (p.lease l').bytes + if l' = l then -b else 0 } := by
  obtain ⟨burst, heq⟩ := p.releaseLocked_eq l b
  rw [heq]
  exact charge_lease l (-b) l'

theorem releaseLocked_shifts (p : Pool) (l : Nat) (b : Int) : Shifts p (p.releaseLocked l b) := by
  have hlease := p.releaseLocked_lease l b
  obtain ⟨burst, heq⟩ := p.releaseLocked_eq l b
  refine ⟨?_, ?_, ?_, fun l' => by rw [hlease], fun l' => by rw [hlease],
    fun l' hc => by rw [hlease]; exact hc⟩
  · rw [heq]
    exact .refl _
  · rw [heq]
    rfl
  · rw [heq]
    rfl

theorem Queue.releaseLocked (h : p.Queue) (hl : l < p.leases) {b : Int} (hb : 0 ≤ b)
    (hle : b ≤ (p.lease l).bytes) : (p.releaseLocked l b).Queue := by
  have hlease := p.releaseLocked_lease l b
  have hshifts := p.releaseLocked_shifts l b
  have hgranted : (p.releaseLocked l b).granted = p.granted := by
    obtain ⟨burst, heq⟩ := p.releaseLocked_eq l b
    rw [heq]
    rfl
  refine h.sub (h.good.releaseLocked hl hb hle) hshifts.waiters hshifts.leases
    (fun w _ => by rw [hgranted]) (fun w _ => by rw [hlease]) fun l' hl' hc => ?_
  rw [hlease] at hc ⊢
  have hzero := h.empty l' hl' hc
  dsimp only
  split
  · rename_i heq
    rw [heq] at hzero ⊢
    omega
  · omega

theorem Queue.remove (h : p.Queue) (call : Nat) : (p.remove call).Queue :=
  h.sub (h.good.withWaiters _) eraseP_sublist rfl (fun _ _ => rfl) (fun _ _ => rfl) h.empty

theorem remove_shifts (p : Pool) (call : Nat) : Shifts p (p.remove call) :=
  ⟨eraseP_sublist, rfl, rfl, fun _ => rfl, fun _ => rfl, fun _ h => h⟩

/-- A pool outside its critical sections. -/
structure Ok (p : Pool) : Prop extends Queue p where
  settled : p.Settled

theorem Queue.dispatch_ok (h : p.Queue) : p.dispatch.Ok :=
  ⟨h.dispatch.1, h.dispatch.2.1⟩

theorem Ok.shrink (h : p.Ok) (hl : l < p.leases) (b : Int) :
    (p.shrink l b).Ok ∧ Shifts p (p.shrink l b) := by
  unfold Pool.shrink
  split
  · exact ⟨h, .refl p⟩
  rename_i hcase
  have hpos : 0 < b := by
    simp only [Bool.or_eq_true, decide_eq_true_eq, not_or] at hcase
    omega
  have hbytes := h.good.nonneg l hl
  have hq := h.toQueue.releaseLocked hl (b := min b (p.lease l).bytes) (by omega) (by omega)
  exact ⟨hq.dispatch_ok, (p.releaseLocked_shifts l _).trans hq.dispatch.2.2⟩

/-! ## Closing -/

variable {f : Lease → Lease}

theorem Good.setLease (h : p.Good) (l : Nat) (hbytes : ∀ lease, (f lease).bytes = lease.bytes)
    (howner : ∀ lease, (f lease).owner = lease.owner)
    (hmarked : ∀ lease, (f lease).isOpaque = lease.isOpaque) : (p.setLease l f).Good :=
  ⟨h.toBalanced.setLease l hbytes howner hmarked,
    ⟨h.normal_nonneg, h.normal_le, h.used_le, h.burst_iff, h.burst_bound⟩⟩

/-- The pool in `close` before it dispatches. -/
def closing (p : Pool) (l : Nat) : Pool :=
  ((p.setLease l fun lease => { lease with closed := true }).releaseLocked l
    (p.lease l).bytes).abandon l

theorem close_eq (l : Nat) (hopen : (p.lease l).closed = false) :
    p.close l = (p.closing l).dispatch := by
  have hbytes := setLease_field (p := p) (f := fun lease => { lease with closed := true })
    Lease.bytes (fun _ => rfl) l l
  unfold close closing
  rw [if_neg (by simp [hopen])]
  dsimp only
  rw [hbytes]

theorem closing_lease (p : Pool) (l l' : Nat) : (p.closing l).lease l' =
    if l' = l then { p.lease l with closed := true, bytes := 0 } else p.lease l' := by
  show ((p.setLease l _).releaseLocked l _).lease l' = _
  rw [releaseLocked_lease]
  unfold setLease
  by_cases h : l' = l
  · subst h
    simp
  · simp [h]

theorem closing_shifts (p : Pool) (l : Nat) : Shifts p (p.closing l) := by
  have hlease := p.closing_lease l
  have hrel := (p.setLease l fun lease => { lease with closed := true }).releaseLocked_shifts l
    (p.lease l).bytes
  refine ⟨filter_sublist.trans hrel.waiters, hrel.owners, hrel.leases, ?_, ?_, ?_⟩
  all_goals
    intro l'
    rw [hlease]
    split
    · rename_i heq
      simp [heq]
    · simp

theorem Queue.closing (h : p.Queue) (hl : l < p.leases) : (p.closing l).Queue := by
  have hlease := p.closing_lease l
  have hset := h.good.setLease l (f := fun lease => { lease with closed := true }) (fun _ => rfl)
    (fun _ => rfl) (fun _ => rfl)
  have hbytes := setLease_field (p := p) (f := fun lease => { lease with closed := true })
    Lease.bytes (fun _ => rfl) l l
  have hgood := hset.releaseLocked (b := (p.lease l).bytes) hl (h.good.nonneg l hl) hbytes.ge
  refine h.sub ?_ (p.closing_shifts l).waiters (p.closing_shifts l).leases ?_ ?_ ?_
  · exact ⟨⟨hgood.owned, hgood.used, hgood.opaqueBytes, hgood.ownerBytes, hgood.nonneg⟩,
      ⟨hgood.normal_nonneg, hgood.normal_le, hgood.used_le, hgood.burst_iff, hgood.burst_bound⟩⟩
  · intro w _
    obtain ⟨burst, heq⟩ :=
      (p.setLease l fun lease => { lease with closed := true }).releaseLocked_eq l (p.lease l).bytes
    show ((p.setLease l _).releaseLocked l _).granted w.call = _
    rw [heq]
    rfl
  · intro w hw
    have hne : w.lease ≠ l := by simpa using (mem_filter.mp hw).2
    rw [hlease, if_neg hne]
  · intro l' hl' hc
    rw [hlease] at hc ⊢
    split
    · rfl
    rename_i hne
    rw [if_neg hne] at hc
    exact h.empty l' hl' hc

theorem Ok.close (h : p.Ok) (hl : l < p.leases) :
    (p.close l).Ok ∧ Shifts p (p.close l) ∧ ((p.close l).lease l).closed = true := by
  cases hopen : (p.lease l).closed with
  | true =>
    have heq : p.close l = p := by
      unfold Pool.close
      rw [if_pos hopen]
    rw [heq]
    exact ⟨h, .refl p, hopen⟩
  | false =>
    rw [close_eq l hopen]
    have hq := h.toQueue.closing hl
    refine ⟨hq.dispatch_ok, (p.closing_shifts l).trans hq.dispatch.2.2, hq.dispatch.2.2.closed l ?_⟩
    rw [closing_lease, if_pos rfl]

/-! ## Other functions -/

theorem Ok.setLease (h : p.Ok) (l : Nat) (hbytes : ∀ lease, (f lease).bytes = lease.bytes)
    (howner : ∀ lease, (f lease).owner = lease.owner)
    (hmarked : ∀ lease, (f lease).isOpaque = lease.isOpaque)
    (hclosed : ∀ lease, (f lease).closed = lease.closed) : (p.setLease l f).Ok := by
  have hb := setLease_field (p := p) Lease.bytes hbytes l
  have ho := setLease_field (p := p) Lease.owner howner l
  have hc := setLease_field (p := p) Lease.closed hclosed l
  refine ⟨h.toQueue.sub (h.good.setLease l hbytes howner hmarked) (.refl _) rfl (fun _ _ => rfl)
    (fun w _ => hc w.lease) ?_, ?_⟩
  · intro l' hl' hcl
    rw [hc] at hcl
    rw [hb]
    exact h.empty l' hl' hcl
  · intro w hw
    refine ⟨(h.settled w hw).1, ?_⟩
    have hblocked := (h.settled w hw).2
    unfold blocked at hblocked ⊢
    have hown : (p.setLease l f).ownerOf w.lease = p.ownerOf w.lease := ho w.lease
    rw [hown]
    exact hblocked

theorem Ok.markOpaque (h : p.Ok) (hl : l < p.leases) :
    (p.markOpaque l).Ok ∧ Shifts p (p.markOpaque l) := by
  have hbal := h.good.toBalanced.markOpaque hl
  unfold Pool.markOpaque at hbal ⊢
  split at hbal
  · rename_i hmarked
    rw [if_pos hmarked]
    exact ⟨h, .refl p⟩
  · rename_i hmarked
    rw [if_neg hmarked]
    have field {γ : Type} (g : Lease → γ) (hg : ∀ lease : Lease, g { lease with isOpaque := true } =
        g lease) := setLease_field (p := p) g hg l
    refine ⟨⟨h.toQueue.sub ⟨hbal, ⟨h.good.normal_nonneg, h.good.normal_le, h.good.used_le,
      h.good.burst_iff, h.good.burst_bound⟩⟩ (.refl _) rfl (fun _ _ => rfl)
      (fun w _ => field Lease.closed (fun _ => rfl) w.lease) ?_, ?_⟩, ?_⟩
    · intro l' hl' hc
      have hc' := (field Lease.closed (fun _ => rfl) l').symm.trans hc
      exact (field Lease.bytes (fun _ => rfl) l').trans (h.empty l' hl' hc')
    · intro w hw
      refine ⟨(h.settled w hw).1, ?_⟩
      have hblocked := (h.settled w hw).2
      unfold blocked at hblocked ⊢
      have hown := field Lease.owner (fun _ => rfl) w.lease
      unfold ownerOf at hblocked ⊢
      rw [hown]
      exact hblocked
    · exact ⟨.refl _, rfl, rfl, field Lease.owner fun _ => rfl, field Lease.growing fun _ => rfl,
        fun l' hc => (field Lease.closed (fun _ => rfl) l').trans hc⟩

theorem Ok.newOwner (h : p.Ok) : p.newOwner.Ok := by
  have hbal := h.good.toBalanced.newOwner
  have hbytes : ∀ o, p.newOwner.ownerBytes o = p.ownerBytes o := fun o =>
    (hbal.ownerBytes o).trans (h.good.ownerBytes o).symm
  have hgood : p.newOwner.Good := by
    refine ⟨hbal, ⟨h.good.normal_nonneg, h.good.normal_le, h.good.used_le, h.good.burst_iff, ?_⟩⟩
    intro o ho
    rw [hbytes]
    exact h.good.burst_bound o ho
  exact ⟨h.toQueue.sub hgood (.refl _) rfl (fun _ _ => rfl) (fun _ _ => rfl) h.empty, h.settled⟩

theorem newLease_lease (p : Pool) (owner : Nat) (hl : l < p.leases) :
    (p.newLease owner).lease l = p.lease l :=
  update_of_ne (ne_of_lt hl) _ _

theorem Ok.newLease (h : p.Ok) {owner : Nat} (howner : owner < p.owners) :
    (p.newLease owner).Ok := by
  have hold : ∀ w ∈ p.waiters, (p.newLease owner).lease w.lease = p.lease w.lease :=
    fun w hw => p.newLease_lease owner (h.valid w hw).1
  refine ⟨⟨⟨h.good.toBalanced.newLease howner, ⟨h.good.normal_nonneg, h.good.normal_le,
    h.good.used_le, h.good.burst_iff, h.good.burst_bound⟩⟩, ?_, h.responses, h.nodup, ?_,
    h.ungranted, ?_⟩, ?_⟩
  · exact fun w hw => ⟨Nat.lt_succ_of_lt (h.valid w hw).1, (h.valid w hw).2⟩
  · intro w hw
    rw [hold w hw]
    exact h.isOpen w hw
  · intro l hl hc
    by_cases heq : l = p.leases
    · subst heq
      show (update p.lease p.leases _ p.leases).bytes = 0
      rw [update_self]
    · have hlt : l < p.leases := by
        have hl' : l < p.leases + 1 := hl
        omega
      rw [p.newLease_lease owner hlt] at hc ⊢
      exact h.empty l hlt hc
  · intro w hw
    refine ⟨(h.settled w hw).1, ?_⟩
    have hblocked := (h.settled w hw).2
    unfold blocked ownerOf at hblocked ⊢
    rw [hold w hw]
    exact hblocked

/-! ## The two halves of `Grow` -/

/-- Announcing a waiter that is not in the queue changes nothing for the
others. -/
theorem Ok.announce (h : p.Ok) (hcall : ∀ w ∈ p.waiters, w.call ≠ call) : (p.announce call).Ok :=
  ⟨h.toQueue.sub
    ⟨⟨h.good.owned, h.good.used, h.good.opaqueBytes, h.good.ownerBytes, h.good.nonneg⟩,
      ⟨h.good.normal_nonneg, h.good.normal_le, h.good.used_le, h.good.burst_iff,
        h.good.burst_bound⟩⟩
    (.refl _) rfl (fun w hw => update_of_ne (hcall w hw) _ _) (fun _ _ => rfl) h.empty,
    h.settled⟩

structure SameLeases (p p' : Pool) : Prop where
  leases : p'.leases = p.leases
  lease : ∀ l, p'.lease l = { p.lease l with bytes := (p'.lease l).bytes }

/-- What the first half of `Grow` can do. -/
inductive Entered (p : Pool) (call : Nat) (c : GrowCall) : Pool → Progress → Prop where
  /-- It fails at once; the waiter may have been announced. -/
  | failed {p' : Pool} {err : GoError} (hp : p' = p ∨ p' = p.announce call) :
      Entered p call c p' (.done (some err))
  | nothing (hzero : c.bytes = 0) : Entered p call c p (.done none)
  | granted (hpos : 0 < c.bytes) (hfit : p.blocked (waiterOf call c) = false)
      (hopen : (p.lease c.lease).closed = false)
      (hrequest : c.phase ≠ .response → p.waiters = []) :
      Entered p call c { (p.announce call).grant (waiterOf call c) with waiters := p.waiters }
        (.done none)
  | waits (hpos : 0 < c.bytes) (hphase : c.phase = .response)
      (hblocked : p.blocked (waiterOf call c) = true)
      (hopen : (p.lease c.lease).closed = false) :
      Entered p call c { p.announce call with waiters := p.waiters ++ [waiterOf call c] } .waiting

theorem remove_last {ws : List Waiter} {w : Waiter} (hws : ∀ w' ∈ ws, w'.call ≠ call)
    (hw : w.call = call) (hqueue : p.waiters = ws ++ [w]) :
    p.remove call = { p with waiters := ws } := by
  unfold remove
  rw [hqueue, eraseP_append_right _ (by simpa using hws)]
  simp [hw]

theorem Ok.enter (h : p.Ok) (hcall : ∀ w ∈ p.waiters, w.call ≠ call) (c : GrowCall)
    (ctxErr : Option ContextErr) :
    Entered p call c (p.enter call c ctxErr).1 (p.enter call c ctxErr).2 := by
  unfold Pool.enter
  by_cases hargs : c.bytes < 0 ∨ (c.phase ≠ .request ∧ c.phase ≠ .response)
  · rw [if_pos hargs]
    exact .failed (.inl rfl)
  rw [if_neg hargs]
  cases ctxErr with
  | some err => exact .failed (.inl rfl)
  | none =>
    cases hopen : (p.lease c.lease).closed with
    | true => exact .failed (.inl rfl)
    | false =>
      simp only [Bool.false_eq_true, if_false]
      by_cases hbig : c.bytes > p.ceiling c.phase - p.ownerBytes (p.ownerOf c.lease)
      · rw [if_pos hbig]
        exact .failed (.inl rfl)
      rw [if_neg hbig]
      by_cases hzero : c.bytes = 0
      · rw [if_pos hzero]
        exact .nothing hzero
      rw [if_neg hzero]
      have hpos : 0 < c.bytes := by
        omega
      let r : Pool := { p.announce call with waiters := p.waiters ++ [waiterOf call c] }
      have henqueue : p.enqueue call c = r.dispatch := rfl
      have hself : (p.announce call).granted call = false := update_self _ _ _
      rcases dispatch_last (p := r) rfl h.settled with ⟨hkeep, hwhy⟩ | ⟨hgrant, hfit, hfirst⟩
      · rw [henqueue, hkeep]
        have hwait : r.granted call = false := hself
        rw [if_neg (by simp [hwait])]
        by_cases hstop : c.phase = .request ∨ (r.waiters.length : Int) > r.maxWaiters
        · rw [if_pos hstop]
          refine .failed (.inr ?_)
          exact remove_last hcall rfl rfl
        · rw [if_neg hstop]
          rw [not_or] at hstop hargs
          have hphase : c.phase = .response := by
            by_contra hne
            exact hargs.2 ⟨hstop.1, hne⟩
          refine .waits hpos hphase ?_ hopen
          rcases hwhy with hblocked | hne
          · exact hblocked
          · exact absurd hphase hne
      · rw [henqueue, hgrant, if_pos]
        · exact .granted hpos hfit hopen hfirst
        · exact update_self _ _ _

theorem Entered.ok (h : p.Ok) (hcall : ∀ w ∈ p.waiters, w.call ≠ call) (hl : c.lease < p.leases)
    (he : Entered p call c p' progress) : p'.Ok := by
  have hann := h.announce hcall
  cases he with
  | failed hp =>
    rcases hp with rfl | rfl
    · exact h
    · exact hann
  | nothing => exact h
  | granted hpos hfit hopen _ =>
    have hgood := hann.good.grant (w := waiterOf call c) hl hpos hfit
    have hlease := grant_lease (p := p.announce call) (waiterOf call c)
    refine ⟨hann.toQueue.sub (hgood.withWaiters _) (.refl _) rfl ?_ ?_ ?_, ?_⟩
    · exact fun w hw => update_of_ne (hcall w hw) _ _
    · intro w _
      have hclosed := congrArg Lease.closed (hlease w.lease)
      exact hclosed
    · intro l hl' hc
      have hc' : (((p.announce call).grant (waiterOf call c)).lease l).closed = true := hc
      rw [hlease] at hc' ⊢
      have hne : l ≠ c.lease := by
        rintro rfl
        have hclosed : (p.lease c.lease).closed = true := hc'
        rw [hopen] at hclosed
        cases hclosed
      have hzero : (p.lease l).bytes = 0 := h.empty l hl' hc'
      show (p.lease l).bytes + (if l = c.lease then c.bytes else 0) = 0
      rw [if_neg hne, hzero]
      rfl
    · intro w hw
      exact ⟨(h.settled w hw).1, hann.good.blocked_grant (w := waiterOf call c) hpos hfit
        (h.settled w hw).2⟩
  | waits hpos hphase hblocked hopen =>
    have hmem : ∀ w ∈ p.waiters ++ [waiterOf call c], w ∈ p.waiters ∨ w = waiterOf call c :=
      fun w hw => by simpa using hw
    refine ⟨⟨hann.good.withWaiters _, ?_, ?_, ?_, ?_, ?_, h.empty⟩, ?_⟩
    · intro w hw
      rcases hmem w hw with hw | rfl
      · exact h.valid w hw
      · exact ⟨hl, hpos⟩
    · intro w hw
      rcases hmem w hw with hw | rfl
      · exact h.responses w hw
      · exact hphase
    · rw [map_append, nodup_append]
      refine ⟨h.nodup, by simp, fun a ha b hb => ?_⟩
      obtain ⟨w, hw, rfl⟩ := mem_map.mp ha
      obtain rfl : b = call := by simpa [waiterOf] using hb
      exact hcall w hw
    · intro w hw
      rcases hmem w hw with hw | rfl
      · exact h.isOpen w hw
      · exact hopen
    · intro w hw
      rcases hmem w hw with hw | rfl
      · exact hann.ungranted w hw
      · exact update_self _ _ _
    · intro w hw
      rcases hmem w hw with hw | rfl
      · exact h.settled w hw
      · exact ⟨hphase, hblocked⟩

theorem Entered.sameLeases (he : Entered p call c p' progress) : SameLeases p p' := by
  cases he with
  | failed hp => rcases hp with rfl | rfl <;> exact ⟨rfl, fun _ => rfl⟩
  | nothing => exact ⟨rfl, fun _ => rfl⟩
  | granted =>
    refine ⟨rfl, fun l => ?_⟩
    have hlease : ((p.announce call).grant (waiterOf call c)).lease l = { p.lease l with
        bytes := (((p.announce call).grant (waiterOf call c)).lease l).bytes } := by
      rw [grant_lease]
      rfl
    exact hlease
  | waits => exact ⟨rfl, fun _ => rfl⟩

theorem Queue.dispatch_idle (h : p.Queue) (hl : ∀ w ∈ p.waiters, w.lease ≠ l) :
    p.dispatch.lease l = p.lease l :=
  (h.good.dispatch h.valid).2.idle l hl

theorem Queue.not_mem_remove (h : p.Queue) (call : Nat) :
    ∀ w ∈ (p.remove call).waiters, w.call ≠ call := by
  intro w hw heq
  have hnd := h.nodup
  unfold Pool.remove at hw
  generalize p.waiters = ws at hnd hw
  induction ws with
  | nil => cases hw
  | cons w' ws ih =>
    rw [map_cons, nodup_cons] at hnd
    by_cases hfirst : w'.call = call
    · rw [eraseP_cons_of_pos (by simp [hfirst])] at hw
      refine hnd.1 (mem_map.mpr ⟨w, hw, ?_⟩)
      rw [heq, hfirst]
    · rw [eraseP_cons_of_neg (by simp [hfirst])] at hw
      rcases mem_cons.mp hw with rfl | hw
      · exact hfirst heq
      · exact ih hnd.2 hw

/-- What a failing call gives back. -/
def refund (p : Pool) (call : Nat) (c : GrowCall) : Int :=
  if p.granted call then min c.bytes (p.lease c.lease).bytes else 0

/-- The second half of `Grow` keeps the pool in order, leaves no waiter of the
call, and if it fails the lease keeps nothing of the grant. -/
theorem Ok.resume (h : p.Ok) (hl : c.lease < p.leases) (hpos : 0 < c.bytes)
    (hcall : ∀ w ∈ p.waiters, w.lease = c.lease ↔ w.call = call) (waitDone : Bool)
    (ctxErr : Option ContextErr) :
    (p.resume call c waitDone ctxErr).1.Ok ∧ Shifts p (p.resume call c waitDone ctxErr).1 ∧
      (∀ w ∈ (p.resume call c waitDone ctxErr).1.waiters, w.call ≠ call) ∧
      ((p.resume call c waitDone ctxErr).2.isSome →
        ((p.resume call c waitDone ctxErr).1.lease c.lease).bytes =
          (p.lease c.lease).bytes - p.refund call c) := by
  have hremoved : ((p.remove call).dispatch.Ok ∧ Shifts p (p.remove call).dispatch ∧
      (∀ w ∈ (p.remove call).dispatch.waiters, w.call ≠ call) ∧
      (p.remove call).dispatch.lease c.lease = p.lease c.lease) := by
    have hq := h.toQueue.remove call
    have hnone := h.toQueue.not_mem_remove call
    have hshifts := p.remove_shifts call
    refine ⟨hq.dispatch_ok, hshifts.trans hq.dispatch.2.2, ?_, ?_⟩
    · exact fun w hw => hnone w (hq.dispatch.2.2.waiters.subset hw)
    · refine hq.dispatch_idle fun w hw heq => hnone w hw ?_
      exact (hcall w (hshifts.waiters.subset hw)).mp heq
  have hgranted : p.granted call = true → ∀ w ∈ p.waiters, w.call ≠ call := by
    rintro hg w hw rfl
    rw [h.ungranted w hw] at hg
    cases hg
  unfold Pool.resume
  cases hclosed : (p.lease c.lease).closed with
  | true =>
    have hzero := h.empty c.lease hl hclosed
    refine ⟨h, .refl p, ?_, fun _ => ?_⟩
    · intro w hw heq
      have hopen := h.isOpen w hw
      rw [(hcall w hw).mpr heq, hclosed] at hopen
      cases hopen
    · unfold refund
      show (p.lease c.lease).bytes = _
      split <;> omega
  | false =>
    simp only [Bool.false_eq_true, if_false]
    cases hg : p.granted call with
    | false =>
      have hrefund : p.refund call c = 0 := by
        unfold refund
        rw [hg]
        rfl
      have hdone : ∀ err : Option GoError, ((p.remove call).dispatch.Ok ∧
          Shifts p (p.remove call).dispatch ∧
          (∀ w ∈ (p.remove call).dispatch.waiters, w.call ≠ call) ∧
          (err.isSome → ((p.remove call).dispatch.lease c.lease).bytes =
            (p.lease c.lease).bytes - p.refund call c)) := fun err =>
        ⟨hremoved.1, hremoved.2.1, hremoved.2.2.1, fun _ => by
          rw [hremoved.2.2.2, hrefund]
          omega⟩
      cases waitDone with
      | true => exact hdone _
      | false => exact hdone _
    | true =>
      cases waitDone with
      | false => exact ⟨h, .refl p, hgranted hg, fun hnone => nomatch hnone⟩
      | true =>
        have hnn := h.good.nonneg c.lease hl
        have hq := h.toQueue.releaseLocked hl
          (b := min c.bytes (p.lease c.lease).bytes) (by omega) (by omega)
        have hshifts := p.releaseLocked_shifts c.lease (min c.bytes (p.lease c.lease).bytes)
        have hmem : ∀ w ∈ (p.releaseLocked c.lease
            (min c.bytes (p.lease c.lease).bytes)).waiters, w.call ≠ call :=
          fun w hw => hgranted hg w (hshifts.waiters.subset hw)
        refine ⟨hq.dispatch_ok, hshifts.trans hq.dispatch.2.2, ?_, fun _ => ?_⟩
        · exact fun w hw => hmem w (hq.dispatch.2.2.waiters.subset hw)
        · have hidle := hq.dispatch_idle fun w hw heq => hmem w hw
            ((hcall w (hshifts.waiters.subset hw)).mp heq)
          have hrefund : p.refund call c = min c.bytes (p.lease c.lease).bytes := by
            unfold refund
            rw [if_pos hg]
          simp only [if_true]
          rw [hidle, releaseLocked_lease, if_pos rfl, hrefund]
          show _ + -_ = _
          omega

end Pool

/-! ## Runs -/

namespace State

variable {s s' : State}
variable {call : Nat}

/-- The pool and its callers, between critical sections. -/
structure Inv (s : State) : Prop where
  ok : s.pool.Ok
  waiter : ∀ w ∈ s.pool.waiters,
    w.call < s.calls ∧ s.call w.call = ⟨w.lease, w.bytes, w.phase, .waiting⟩
  lease : ∀ c < s.calls, (s.call c).lease < s.pool.leases
  waits : ∀ c < s.calls, (s.call c).progress = .waiting →
    0 < (s.call c).bytes ∧ (s.call c).phase = .response
  growing : ∀ c < s.calls, (s.call c).progress = .waiting →
    (s.pool.lease (s.call c).lease).growing = true
  single : ∀ c < s.calls, ∀ c' < s.calls, (s.call c).progress = .waiting →
    (s.call c').progress = .waiting → (s.call c).lease = (s.call c').lease → c = c'

section

variable (h : s.Inv)

include h

/-- Only the pool changed, and nobody joined its queue. -/
theorem Inv.shift (hok : p'.Ok) (hs : Pool.Shifts s.pool p') :
    ({ s with pool := p' } : State).Inv where
  ok := hok
  waiter w hw := h.waiter w (hs.waiters.subset hw)
  lease c hc := by
    rw [hs.leases]
    exact h.lease c hc
  waits := h.waits
  growing c hc hwait := by
    rw [hs.growing]
    exact h.growing c hc hwait
  single := h.single

theorem Inv.newOwner : ({ s with pool := s.pool.newOwner } : State).Inv :=
  ⟨h.ok.newOwner, h.waiter, h.lease, h.waits, h.growing, h.single⟩

theorem Inv.newLease {owner : Nat} (howner : owner < s.pool.owners) :
    ({ s with pool := s.pool.newLease owner } : State).Inv where
  ok := h.ok.newLease howner
  waiter := h.waiter
  lease c hc := Nat.lt_succ_of_lt (h.lease c hc)
  waits := h.waits
  growing c hc hwait := by
    rw [s.pool.newLease_lease owner (h.lease c hc)]
    exact h.growing c hc hwait
  single := h.single

theorem Inv.grow {l : Nat} (hl : l < s.pool.leases) (bytes : Int) (phase : Phase) :
    ({ s with
      calls := s.calls + 1
      call := update s.call s.calls ⟨l, bytes, phase, .entering⟩ } : State).Inv := by
  have hold : ∀ c, c < s.calls → update s.call s.calls ⟨l, bytes, phase, .entering⟩ c = s.call c :=
    fun c hc => update_of_ne (ne_of_lt hc) _ _
  have hnew : ∀ c, c < s.calls + 1 →
      (update s.call s.calls ⟨l, bytes, phase, .entering⟩ c).progress = .waiting →
      c < s.calls := by
    intro c hc hwait
    by_contra hge
    obtain rfl : c = s.calls := by omega
    rw [update_self] at hwait
    cases hwait
  refine ⟨h.ok, fun w hw => ?_, fun c hc => ?_, fun c hc hwait => ?_, fun c hc hwait => ?_,
    fun c hc c' hc' hwait hwait' hsame => ?_⟩
  · obtain ⟨hlt, heq⟩ := h.waiter w hw
    exact ⟨Nat.lt_succ_of_lt hlt, (hold _ hlt).trans heq⟩
  · dsimp only at hc ⊢
    by_cases hlt : c < s.calls
    · rw [hold c hlt]
      exact h.lease c hlt
    obtain rfl : c = s.calls := by omega
    rw [update_self]
    exact hl
  · have hlt := hnew c hc hwait
    dsimp only at hwait ⊢
    rw [hold c hlt] at hwait ⊢
    exact h.waits c hlt hwait
  · have hlt := hnew c hc hwait
    dsimp only at hwait ⊢
    rw [hold c hlt] at hwait ⊢
    exact h.growing c hlt hwait
  · have hlt := hnew c hc hwait
    have hlt' := hnew c' hc' hwait'
    dsimp only at hwait hwait' hsame
    rw [hold c hlt] at hwait hsame
    rw [hold c' hlt'] at hwait' hsame
    exact h.single c hlt c' hlt' hwait hwait' hsame

/-- Nobody else waits for the lease of the call. -/
def Alone (s : State) (call : Nat) : Prop :=
  ∀ c < s.calls, c ≠ call → (s.call c).progress = .waiting → (s.call c).lease ≠ (s.call call).lease

/-- A call moves on and holds `growMu` while it waits. -/
theorem Inv.settle (hcall : call < s.calls) (halone : s.Alone call) (hok : p'.Ok)
    (hleases : p'.leases = s.pool.leases)
    (hgrowing : ∀ l, (p'.lease l).growing = (s.pool.lease l).growing)
    (hwaiters : ∀ w ∈ p'.waiters, (w ∈ s.pool.waiters ∧ w.call ≠ call) ∨
      (w = Pool.waiterOf call (s.call call) ∧ progress = .waiting))
    (hwaits : progress = .waiting → 0 < (s.call call).bytes ∧ (s.call call).phase = .response) :
    (s.settle call p' progress).Inv := by
  have hself : (s.settle call p' progress).call call = { s.call call with progress := progress } :=
    update_self _ _ _
  have hother : ∀ c, c ≠ call → (s.settle call p' progress).call c = s.call c :=
    fun c hc => update_of_ne hc _ _
  have hlease : ∀ c, ((s.settle call p' progress).call c).lease = (s.call c).lease := by
    intro c
    by_cases hc : c = call
    · rw [hc, hself]
    · rw [hother c hc]
  have hfree : ∀ l, l ≠ (s.call call).lease →
      ((s.settle call p' progress).pool.lease l).growing = (s.pool.lease l).growing := by
    intro l hl
    rw [← hgrowing l]
    exact congrArg Lease.growing (update_of_ne hl _ _)
  have hok' : (s.settle call p' progress).pool.Ok :=
    hok.setLease (f := fun lease => { lease with growing := progress == .waiting })
      (s.call call).lease (fun _ => rfl) (fun _ => rfl) (fun _ => rfl) (fun _ => rfl)
  refine ⟨hok', fun w hw => ?_, fun c hc => ?_, fun c hc hwait => ?_,
    fun c hc hwait => ?_, fun c hc c' hc' hwait hwait' hsame => ?_⟩
  · rcases hwaiters w hw with ⟨hw, hne⟩ | ⟨rfl, rfl⟩
    · rw [hother _ hne]
      exact h.waiter w hw
    · exact ⟨hcall, hself⟩
  · rw [hlease]
    exact lt_of_lt_of_eq (h.lease c hc) hleases.symm
  · by_cases heq : c = call
    · subst heq
      rw [hself] at hwait ⊢
      exact hwaits hwait
    · rw [hother c heq] at hwait ⊢
      exact h.waits c hc hwait
  · rw [hlease]
    by_cases heq : c = call
    · subst heq
      rw [hself] at hwait
      obtain rfl : progress = .waiting := hwait
      show (update p'.lease _ _ _).growing = true
      rw [update_self]
      rfl
    · rw [hother c heq] at hwait
      rw [hfree _ (halone c hc heq hwait)]
      exact h.growing c hc hwait
  · rw [hlease, hlease] at hsame
    by_cases heq : c = call
    · by_cases heq' : c' = call
      · rw [heq, heq']
      · rw [hother c' heq'] at hwait'
        exact absurd (heq ▸ hsame.symm) (halone c' hc' heq' hwait')
    · rw [hother c heq] at hwait
      by_cases heq' : c' = call
      · exact absurd (heq' ▸ hsame) (halone c hc heq hwait)
      · rw [hother c' heq'] at hwait'
        exact h.single c hc c' hc' hwait hwait' hsame

/-- A call that enters finds nobody waiting for its lease. -/
theorem Inv.alone_of_free (hfree : (s.pool.lease (s.call call).lease).growing = false) :
    s.Alone call := by
  intro c hc _ hwait heq
  have hgrow := h.growing c hc hwait
  rw [heq, hfree] at hgrow
  cases hgrow

theorem Inv.alone_of_waiting (hcall : call < s.calls) (hwait : (s.call call).progress = .waiting) :
    s.Alone call :=
  fun c hc hne hwait' heq => hne (h.single c hc call hcall hwait' hwait heq)

theorem Inv.entered (hprog : (s.call call).progress = .entering) (ctxErr : Option ContextErr) :
    Pool.Entered s.pool call (s.call call) (s.pool.enter call (s.call call) ctxErr).1
      (s.pool.enter call (s.call call) ctxErr).2 ∧ ∀ w ∈ s.pool.waiters, w.call ≠ call := by
  have hcall : ∀ w ∈ s.pool.waiters, w.call ≠ call := by
    rintro w hw rfl
    rw [(h.waiter w hw).2] at hprog
    cases hprog
  exact ⟨h.ok.enter hcall _ ctxErr, hcall⟩

theorem Inv.enter (hcall : call < s.calls) (hprog : (s.call call).progress = .entering)
    (hfree : (s.pool.lease (s.call call).lease).growing = false) (ctxErr : Option ContextErr) :
    (s.settle call (s.pool.enter call (s.call call) ctxErr).1
      (s.pool.enter call (s.call call) ctxErr).2).Inv := by
  obtain ⟨hentered, hother⟩ := h.entered hprog ctxErr
  have hok := hentered.ok h.ok hother (h.lease call hcall)
  have hsame := hentered.sameLeases
  generalize (s.pool.enter call (s.call call) ctxErr).1 = p' at *
  generalize (s.pool.enter call (s.call call) ctxErr).2 = progress at *
  refine h.settle hcall (h.alone_of_free hfree) hok hsame.leases
    (fun l => by rw [hsame.lease l]) ?_ ?_
  · intro w hw
    cases hentered with
    | failed hp => rcases hp with rfl | rfl <;> exact .inl ⟨hw, hother w hw⟩
    | nothing => exact .inl ⟨hw, hother w hw⟩
    | granted => exact .inl ⟨hw, hother w hw⟩
    | waits =>
      rcases mem_append.mp hw with hw | hw
      · exact .inl ⟨hw, hother w hw⟩
      · exact .inr ⟨mem_singleton.mp hw, rfl⟩
  · rintro rfl
    cases hentered with
    | waits hpos hphase => exact ⟨hpos, hphase⟩

theorem Inv.resumed (hcall : call < s.calls) (hprog : (s.call call).progress = .waiting) :
    ∀ w ∈ s.pool.waiters, w.lease = (s.call call).lease ↔ w.call = call := by
  intro w hw
  obtain ⟨hlt, heq⟩ := h.waiter w hw
  constructor
  · intro hlease
    refine h.single w.call hlt call hcall (by rw [heq]) hprog ?_
    rw [heq]
    exact hlease
  · rintro rfl
    rw [heq]

theorem Inv.resume (hcall : call < s.calls) (hprog : (s.call call).progress = .waiting)
    (waitDone : Bool) (ctxErr : Option ContextErr) :
    (s.settle call (s.pool.resume call (s.call call) waitDone ctxErr).1
      (.done (s.pool.resume call (s.call call) waitDone ctxErr).2)).Inv := by
  obtain ⟨hok, hshifts, hnone, -⟩ := h.ok.resume (h.lease call hcall) (h.waits call hcall hprog).1
    (h.resumed hcall hprog) waitDone ctxErr
  refine h.settle hcall (h.alone_of_waiting hcall hprog) hok hshifts.leases hshifts.growing ?_
    fun hwait => nomatch hwait
  exact fun w hw => .inl ⟨hshifts.waiters.subset hw, hnone w hw⟩

/-- Every critical section keeps the invariant. -/
theorem Inv.step {a : Action} (hstep : s.step a = some s') : s'.Inv := by
  cases a with
  | newOwner =>
    cases hstep
    exact h.newOwner
  | newLease owner =>
    obtain ⟨howner, heq⟩ := ite_none_right_eq_some.mp hstep
    cases heq
    exact h.newLease howner
  | grow l bytes phase =>
    obtain ⟨hl, heq⟩ := ite_none_right_eq_some.mp hstep
    cases heq
    exact h.grow hl bytes phase
  | enter call ctxErr =>
    obtain ⟨⟨hcall, hprog, hfree⟩, heq⟩ := ite_none_right_eq_some.mp hstep
    cases heq
    exact h.enter hcall hprog (by simpa using hfree) ctxErr
  | resume call waitDone ctxErr =>
    obtain ⟨⟨hcall, hprog, -⟩, heq⟩ := ite_none_right_eq_some.mp hstep
    cases heq
    exact h.resume hcall hprog waitDone ctxErr
  | shrink l bytes =>
    obtain ⟨hl, heq⟩ := ite_none_right_eq_some.mp hstep
    cases heq
    exact h.shift (h.ok.shrink hl bytes).1 (h.ok.shrink hl bytes).2
  | close l =>
    obtain ⟨hl, heq⟩ := ite_none_right_eq_some.mp hstep
    cases heq
    exact h.shift (h.ok.close hl).1 (h.ok.close hl).2.1
  | markOpaque l =>
    obtain ⟨hl, heq⟩ := ite_none_right_eq_some.mp hstep
    cases heq
    exact h.shift (h.ok.markOpaque hl).1 (h.ok.markOpaque hl).2

end

end State

/-- Most of the bytes of a new pool may be its reserve, but not all. -/
theorem burst_bounds {bytes percent : Int} (hbytes : 0 ≤ bytes) (hpos : 0 ≤ percent)
    (hle : percent ≤ 99) : 0 ≤ bytes / 100 * percent ∧ bytes / 100 * percent ≤ bytes := by
  have hdiv : 0 ≤ bytes / 100 := by omega
  have hmul : bytes / 100 * percent ≤ bytes / 100 * 99 := Int.mul_le_mul_of_nonneg_left hle hdiv
  exact ⟨Int.mul_nonneg hdiv hpos, by omega⟩

/-- Nothing was done with the pool yet. -/
structure Pool.Empty (p : Pool) : Prop where
  normal_nonneg : 0 ≤ p.normal
  normal_le : p.normal ≤ p.total
  used : p.used = 0
  opaqueBytes : p.opaqueBytes = 0
  burstOwner : p.burstOwner = none
  waiters : p.waiters = []
  ownerBytes : ∀ o, p.ownerBytes o = 0
  leases : p.leases = 0

variable {opts : Options} {pool : Pool}

theorem new_empty (hnew : new opts = .ok pool) : pool.Empty := by
  unfold new at hnew
  by_cases hopts : (opts.bytes < 1024 || opts.burstPercent < 1 || opts.burstPercent > 99 ||
      opts.waitTimeout ≤ 0) = true
  · rw [if_pos hopts] at hnew
    cases hnew
  rw [if_neg hopts] at hnew
  by_cases hmax : (if opts.maxWaiters = 0 then 1024 else opts.maxWaiters) < 0
  · rw [if_pos hmax] at hnew
    cases hnew
  rw [if_neg hmax] at hnew
  cases hnew
  simp only [Bool.or_eq_true, decide_eq_true_eq, not_or, not_lt, not_le] at hopts
  obtain ⟨hnonneg, hle⟩ := @burst_bounds opts.bytes opts.burstPercent (by omega) (by omega)
    (by omega)
  exact ⟨by dsimp only; omega, by dsimp only; omega, rfl, rfl, rfl, rfl, fun _ => rfl, rfl⟩

theorem Pool.Empty.good {p : Pool} (h : p.Empty) : p.Good := by
  have hnormal := h.normal_nonneg
  have hle := h.normal_le
  constructor
  · constructor
    · simp [h.leases]
    · rw [h.used, h.leases]
      rfl
    · rw [h.opaqueBytes, h.leases]
      rfl
    · intro o
      rw [h.ownerBytes, h.leases]
      rfl
    · simp [h.leases]
  · refine ⟨hnormal, hle, ?_, ?_, ?_⟩
    · rw [h.used]
      omega
    · rw [h.burstOwner, h.used]
      simpa using hnormal
    · simp [h.burstOwner]

theorem new_inv (hnew : new opts = .ok pool) : (State.start pool).Inv := by
  have h := new_empty hnew
  constructor
  · refine ⟨⟨h.good, ?_, ?_, ?_, ?_, ?_, ?_⟩, ?_⟩ <;>
      simp [State.start, Pool.Valid, Pool.Settled, h.waiters, h.leases]
  all_goals simp [State.start, h.waiters]

/-- Whatever was done with a pool since it was made. -/
theorem run_inv (hnew : new opts = .ok pool) {actions : List Action} {s : State}
    (hrun : Machine.run State.step (.start pool) actions = some s) : s.Inv :=
  Machine.run_invariant (fun _ _ _ h => h.step) (new_inv hnew) hrun

end Sink.Capacity
