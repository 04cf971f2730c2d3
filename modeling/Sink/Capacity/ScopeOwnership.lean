import Sink.Capacity.Scope

/-!
# Who closes a lease

A lease made through a scope is open until the scope's last reference is
released, unless somebody closes it directly, and closed ever after. The
first half needs to know which steps of the pool close leases at all
(`step_closed`), the second that nothing opens one again.
-/

namespace Sink.Capacity

open Function List Option

/-! ## Closed leases in the pool -/

variable {l : Nat}

namespace Pool

variable {p : Pool}

theorem Queue.dispatch_lease_closed (h : p.Queue) (l : Nat) :
    (p.dispatch.lease l).closed = (p.lease l).closed := by
  rw [(h.good.dispatch h.valid).2.lease l]

theorem Ok.shrink_closed (h : p.Ok) (hl : l < p.leases) (b : Int) (l' : Nat) :
    ((p.shrink l b).lease l').closed = (p.lease l').closed := by
  unfold Pool.shrink
  split
  · rfl
  rename_i hcase
  have hpos : 0 < b := by
    simp only [Bool.or_eq_true, decide_eq_true_eq, not_or] at hcase
    omega
  have hbytes := h.good.nonneg l hl
  have hq := h.toQueue.releaseLocked hl (b := min b (p.lease l).bytes) (by omega) (by omega)
  rw [hq.dispatch_lease_closed, releaseLocked_lease]

theorem Ok.close_other (h : p.Ok) {l' : Nat} (hl : l < p.leases) (hne : l' ≠ l) :
    ((p.close l).lease l').closed = (p.lease l').closed := by
  cases hopen : (p.lease l).closed with
  | true =>
    unfold Pool.close
    rw [if_pos hopen]
  | false =>
    rw [close_eq l hopen, (h.toQueue.closing hl).dispatch_lease_closed, closing_lease, if_neg hne]

theorem markOpaque_closed (p : Pool) (l l' : Nat) :
    ((p.markOpaque l).lease l').closed = (p.lease l').closed := by
  unfold markOpaque
  split
  · rfl
  · exact setLease_field (f := fun lease => { lease with isOpaque := true }) Lease.closed
      (fun _ => rfl) l l'

theorem Ok.resume_closed (h : p.Ok) {call : Nat} {c : GrowCall} (hl : c.lease < p.leases)
    (hpos : 0 < c.bytes) (waitDone : Bool) (ctxErr : Option ContextErr) (l : Nat) :
    ((p.resume call c waitDone ctxErr).1.lease l).closed = (p.lease l).closed := by
  have hbytes := h.good.nonneg c.lease hl
  have hq := h.toQueue.releaseLocked hl (b := min c.bytes (p.lease c.lease).bytes) (by omega)
    (by omega)
  have hremoved := (h.toQueue.remove call).dispatch_lease_closed l
  unfold Pool.resume
  split
  · rfl
  split
  · split
    · rw [hq.dispatch_lease_closed, releaseLocked_lease]
    · exact hremoved
  split
  · exact hremoved
  · rfl

end Pool

namespace State

variable {s s' : State}

theorem settle_closed (s : State) (call : Nat) (pool : Pool) (progress : Progress) (l : Nat) :
    ((s.settle call pool progress).pool.lease l).closed = (pool.lease l).closed :=
  Pool.setLease_field (f := fun lease => { lease with growing := progress == .waiting })
    Lease.closed (fun _ => rfl) (s.call call).lease l

theorem Inv.step_closed (h : s.Inv) {a : Action} (hstep : s.step a = some s')
    (hl : l < s.pool.leases) :
    (s'.pool.lease l).closed = ((s.pool.lease l).closed || decide (a = .close l)) := by
  cases a with
  | newOwner =>
    cases hstep
    simp [Pool.newOwner]
  | newLease owner =>
    obtain ⟨-, heq⟩ := ite_none_right_eq_some.mp hstep
    cases heq
    rw [s.pool.newLease_lease owner hl]
    simp
  | grow l' bytes phase =>
    obtain ⟨-, heq⟩ := ite_none_right_eq_some.mp hstep
    cases heq
    simp
  | enter call ctxErr =>
    obtain ⟨⟨-, hprog, -⟩, heq⟩ := ite_none_right_eq_some.mp hstep
    cases heq
    rw [settle_closed, (h.entered hprog ctxErr).1.sameLeases.lease l]
    simp
  | resume call waitDone ctxErr =>
    obtain ⟨⟨hcall, hprog, -⟩, heq⟩ := ite_none_right_eq_some.mp hstep
    cases heq
    rw [settle_closed, h.ok.resume_closed (h.lease call hcall) (h.waits call hcall hprog).1]
    simp
  | shrink l' bytes =>
    obtain ⟨hl', heq⟩ := ite_none_right_eq_some.mp hstep
    cases heq
    rw [h.ok.shrink_closed hl']
    simp
  | close l' =>
    obtain ⟨hl', heq⟩ := ite_none_right_eq_some.mp hstep
    cases heq
    by_cases hsame : l = l'
    · subst hsame
      rw [(h.ok.close hl').2.2]
      simp
    · rw [h.ok.close_other hl' hsame]
      simp [Ne.symm hsame]
  | markOpaque l' =>
    obtain ⟨-, heq⟩ := ite_none_right_eq_some.mp hstep
    cases heq
    rw [s.pool.markOpaque_closed l' l]
    simp

theorem Inv.step_tables (h : s.Inv) {a : Action} (hstep : s.step a = some s') :
    s.pool.owners ≤ s'.pool.owners ∧ s.pool.leases ≤ s'.pool.leases := by
  cases a with
  | newOwner =>
    cases hstep
    exact ⟨Nat.le_succ _, le_rfl⟩
  | newLease owner =>
    obtain ⟨-, heq⟩ := ite_none_right_eq_some.mp hstep
    cases heq
    exact ⟨le_rfl, Nat.le_succ _⟩
  | grow l' bytes phase =>
    obtain ⟨-, heq⟩ := ite_none_right_eq_some.mp hstep
    cases heq
    exact ⟨le_rfl, le_rfl⟩
  | enter call ctxErr =>
    obtain ⟨⟨-, hprog, -⟩, heq⟩ := ite_none_right_eq_some.mp hstep
    cases heq
    have hentered := (h.entered hprog ctxErr).1
    generalize (s.pool.enter call (s.call call) ctxErr).1 = p' at hentered ⊢
    generalize (s.pool.enter call (s.call call) ctxErr).2 = progress at hentered ⊢
    cases hentered with
    | failed hp => rcases hp with rfl | rfl <;> exact ⟨le_rfl, le_rfl⟩
    | nothing => exact ⟨le_rfl, le_rfl⟩
    | granted => exact ⟨le_rfl, le_rfl⟩
    | waits => exact ⟨le_rfl, le_rfl⟩
  | resume call waitDone ctxErr =>
    obtain ⟨⟨hcall, hprog, -⟩, heq⟩ := ite_none_right_eq_some.mp hstep
    cases heq
    have hshifts := (h.ok.resume (h.lease call hcall) (h.waits call hcall hprog).1
      (h.resumed hcall hprog) waitDone ctxErr).2.1
    exact ⟨hshifts.owners.ge, hshifts.leases.ge⟩
  | shrink l' bytes =>
    obtain ⟨hl', heq⟩ := ite_none_right_eq_some.mp hstep
    cases heq
    exact ⟨(h.ok.shrink hl' bytes).2.owners.ge, (h.ok.shrink hl' bytes).2.leases.ge⟩
  | close l' =>
    obtain ⟨hl', heq⟩ := ite_none_right_eq_some.mp hstep
    cases heq
    exact ⟨(h.ok.close hl').2.1.owners.ge, (h.ok.close hl').2.1.leases.ge⟩
  | markOpaque l' =>
    obtain ⟨hl', heq⟩ := ite_none_right_eq_some.mp hstep
    cases heq
    exact ⟨(h.ok.markOpaque hl').2.owners.ge, (h.ok.markOpaque hl').2.leases.ge⟩

/-- What a list of pool actions does to the leases that existed before. -/
structure Follows (s s' : State) (actions : List Action) : Prop where
  inv : s'.Inv
  owners : s.pool.owners ≤ s'.pool.owners
  leases : s.pool.leases ≤ s'.pool.leases
  closed : ∀ l < s.pool.leases, (s.pool.lease l).closed = true → (s'.pool.lease l).closed = true
  onlyClose : ∀ l < s.pool.leases, (s'.pool.lease l).closed = true →
    (s.pool.lease l).closed = true ∨ .close l ∈ actions

variable {actions : List Action}

theorem Inv.follows (h : s.Inv)
    (hrun : Machine.run State.step s actions = some s') : Follows s s' actions := by
  induction actions generalizing s with
  | nil =>
    cases hrun
    exact ⟨h, le_rfl, le_rfl, fun _ _ hc => hc, fun _ _ hc => .inl hc⟩
  | cons a actions ih =>
    obtain ⟨s₁, hstep, hrest⟩ := Machine.run_cons.mp hrun
    have hrest' := ih (h.step hstep) hrest
    obtain ⟨howners, hleases⟩ := h.step_tables hstep
    refine ⟨hrest'.inv, howners.trans hrest'.owners, hleases.trans hrest'.leases, ?_, ?_⟩
    · intro l hl hc
      refine hrest'.closed l (hl.trans_le hleases) ?_
      rw [h.step_closed hstep hl, hc]
      rfl
    · intro l hl hc
      rcases hrest'.onlyClose l (hl.trans_le hleases) hc with hc₁ | hmem
      · rw [h.step_closed hstep hl] at hc₁
        rcases Bool.or_eq_true_iff.mp hc₁ with hc₀ | ha
        · exact .inl hc₀
        · exact .inr (mem_cons.mpr (.inl (of_decide_eq_true ha).symm))
      · exact .inr (mem_cons_of_mem _ hmem)

end State

/-! ## One scope -/

/-- A scope and the leases made through it. `A` holds of the leases somebody
closed directly. -/
structure Owns (A : Nat → Prop) (pool : Pool) (via : Nat → Option Nat) (sc : Nat)
    (scope : Scope) : Prop where
  owner : scope.owner < pool.owners
  input : via scope.input = some sc
  output : via scope.output = some sc
  outputs : ∀ o l, scope.outputs o = some l → via l = some sc
  listed : ∀ l ∈ scope.leases, via l = some sc
  unlocked : 0 < scope.refs → scope.closing = none
  complete : 0 < scope.refs → ∀ l, via l = some sc → l ∈ scope.leases
  live : 0 < scope.refs → ∀ l, via l = some sc → (pool.lease l).closed = true → A l
  closing : ∀ rest, scope.closing = some rest → ∀ l ∈ rest, via l = some sc
  released : scope.refs = 0 → ∀ l, via l = some sc →
    (pool.lease l).closed = true ∨ ∃ rest, scope.closing = some rest ∧ l ∈ rest

theorem via_made {via : Nat → Option Nat} {l' sc sc' : Nat} (hnone : via l = none)
    (hl' : via l' = some sc) : update via l (some sc') l' = some sc := by
  rw [update_of_ne, hl']
  rintro rfl
  rw [hnone] at hl'
  cases hl'

namespace Owns

variable {A : Nat → Prop} {pool : Pool} {via via' : Nat → Option Nat} {sc : Nat} {scope : Scope}

theorem congr_via (h : Owns A pool via sc scope)
    (hvia : ∀ l, via' l = some sc ↔ via l = some sc) : Owns A pool via' sc scope where
  owner := h.owner
  input := (hvia _).mpr h.input
  output := (hvia _).mpr h.output
  outputs o l hl := (hvia l).mpr (h.outputs o l hl)
  listed l hl := (hvia l).mpr (h.listed l hl)
  unlocked := h.unlocked
  complete hrefs l hl := h.complete hrefs l ((hvia l).mp hl)
  live hrefs l hl := h.live hrefs l ((hvia l).mp hl)
  closing rest hrest l hl := (hvia l).mpr (h.closing rest hrest l hl)
  released hrefs l hl := h.released hrefs l ((hvia l).mp hl)

theorem follows {m m' : State} (h : Owns A m.pool via sc scope)
    (hm : State.Follows m m' actions) (hvia : ∀ l, via l = some sc → l < m.pool.leases)
    (hclose : ∀ l, .close l ∈ actions → via l = some sc → 0 < scope.refs → A l) :
    Owns A m'.pool via sc scope :=
  { h with
    owner := h.owner.trans_le hm.owners
    live := by
      intro hrefs l hl hc
      rcases hm.onlyClose l (hvia l hl) hc with hbefore | hmem
      · exact h.live hrefs l hl hbefore
      · exact hclose l hmem hl hrefs
    released := by
      intro hrefs l hl
      exact (h.released hrefs l hl).imp_left (hm.closed l (hvia l hl)) }

section

variable (h : Owns A pool via sc scope)

include h

theorem listing (hnone : via l = none) (hrefs : scope.refs ≠ 0)
    (hopen : (pool.lease l).closed = false) :
    Owns A pool (update via l (some sc)) sc { scope with leases := scope.leases ++ [l] } := by
  have hback : ∀ l', update via l (some sc) l' = some sc → l' = l ∨ via l' = some sc := by
    intro l' hl'
    by_cases hsame : l' = l
    · exact .inl hsame
    · rw [update_of_ne hsame] at hl'
      exact .inr hl'
  exact {
    owner := h.owner
    input := via_made hnone h.input
    output := via_made hnone h.output
    outputs := fun o l' hl' => via_made hnone (h.outputs o l' hl')
    listed := by
      intro l' hl'
      rcases mem_append.mp hl' with hold | hnew
      · exact via_made hnone (h.listed l' hold)
      · rw [mem_singleton.mp hnew, update_self]
    unlocked := h.unlocked
    complete := by
      intro hpos l' hl'
      rcases hback l' hl' with rfl | hold
      · exact mem_append_right _ (mem_singleton.mpr rfl)
      · exact mem_append_left _ (h.complete hpos l' hold)
    live := by
      intro hpos l' hl' hc
      rcases hback l' hl' with rfl | hold
      · rw [hopen] at hc
        cases hc
      · exact h.live hpos l' hold hc
    closing := fun rest hrest l' hl' => via_made hnone (h.closing rest hrest l' hl')
    released := fun hzero => absurd hzero hrefs }

/-- One more lease, closed because the scope is not in use any more. -/
theorem late (hnone : via l = none) (hrefs : scope.refs = 0)
    (hclosed : (pool.lease l).closed = true) :
    Owns A pool (update via l (some sc)) sc scope :=
  {
    owner := h.owner
    input := via_made hnone h.input
    output := via_made hnone h.output
    outputs := fun o l' hl' => via_made hnone (h.outputs o l' hl')
    listed := fun l' hl' => via_made hnone (h.listed l' hl')
    unlocked := h.unlocked
    complete := fun hpos => absurd hrefs hpos.ne'
    live := fun hpos => absurd hrefs hpos.ne'
    closing := fun rest hrest l' hl' => via_made hnone (h.closing rest hrest l' hl')
    released := by
      intro hzero l' hl'
      by_cases hsame : l' = l
      · exact .inl (hsame ▸ hclosed)
      · rw [update_of_ne hsame] at hl'
        exact h.released hzero l' hl' }

/-- A reference is dropped; with the last one the scope starts closing. -/
theorem drop (hrefs : scope.refs ≠ 0) :
    Owns A pool via sc
      { scope with
        refs := scope.refs - 1
        closing := if scope.refs - 1 = 0 then some scope.leases else none } := by
  have hpos : 0 < scope.refs := Nat.pos_of_ne_zero hrefs
  by_cases hlast : scope.refs - 1 = 0
  · rw [if_pos hlast]
    exact { h with
      unlocked := fun hmore => absurd hlast hmore.ne'
      complete := fun hmore => absurd hlast hmore.ne'
      live := fun hmore => absurd hlast hmore.ne'
      closing := fun rest hrest => some.inj hrest ▸ h.listed
      released := fun _ l hl => .inr ⟨scope.leases, rfl, h.complete hpos l hl⟩ }
  · rw [if_neg hlast]
    exact { h with
      unlocked := fun _ => rfl
      complete := fun _ => h.complete hpos
      live := fun _ => h.live hpos
      closing := fun rest hrest => nomatch hrest
      released := fun hzero => absurd hzero hlast }

theorem retain (hrefs : scope.refs ≠ 0) :
    Owns A pool via sc { scope with refs := scope.refs + 1 } :=
  have hpos : 0 < scope.refs := Nat.pos_of_ne_zero hrefs
  { h with
    unlocked := fun _ => h.unlocked hpos
    complete := fun _ => h.complete hpos
    live := fun _ => h.live hpos
    released := fun hzero => absurd hzero (Nat.succ_ne_zero _) }

theorem next {rest : List Nat} (hclosing : scope.closing = some (l :: rest))
    (hclosed : (pool.lease l).closed = true) :
    Owns A pool via sc { scope with closing := some rest } :=
  have hzero : ¬ 0 < scope.refs := fun hpos => by
    rw [h.unlocked hpos] at hclosing
    cases hclosing
  { h with
    unlocked := fun hpos => absurd hpos hzero
    closing := fun rest' hrest' l' hl' =>
      h.closing _ hclosing l' (mem_cons_of_mem _ (some.inj hrest' ▸ hl'))
    released := by
      intro hrefs l' hl'
      rcases h.released hrefs l' hl' with hc | ⟨rest', hrest', hmem⟩
      · exact .inl hc
      rw [hclosing] at hrest'
      cases hrest'
      rcases mem_cons.mp hmem with rfl | hmem
      · exact .inl hclosed
      · exact .inr ⟨rest, rfl, hmem⟩ }

theorem finish (hclosing : scope.closing = some []) :
    Owns A pool via sc { scope with leases := [], closing := none } :=
  have hzero : ¬ 0 < scope.refs := fun hpos => by
    rw [h.unlocked hpos] at hclosing
    cases hclosing
  { h with
    listed := fun l hl => nomatch hl
    unlocked := fun _ => rfl
    complete := fun hpos => absurd hpos hzero
    closing := fun rest hrest => nomatch hrest
    released := by
      intro hrefs l hl
      rcases h.released hrefs l hl with hc | ⟨rest, hrest, hmem⟩
      · exact .inl hc
      rw [hclosing] at hrest
      cases hrest
      cases hmem }

end

end Owns

/-! ## All scopes -/

structure Owned (A : Nat → Prop) (s : System) : Prop where
  memory : s.memory.Inv
  via : ∀ l sc, s.via l = some sc → l < s.memory.pool.leases ∧ sc < s.scopes
  owns : ∀ sc < s.scopes, Owns A s.memory.pool s.via sc (s.scope sc)

namespace Owned

variable {A : Nat → Prop} {s t : System}

theorem nextLease_via (h : Owned A s) : s.via s.nextLease = none := by
  cases hvia : s.via s.nextLease with
  | none => rfl
  | some sc => exact absurd (h.via _ _ hvia).1 (lt_irrefl _)

theorem act (h : Owned A s) (hact : s.act actions = some t)
    (hclose : ∀ l sc, .close l ∈ actions → s.via l = some sc → 0 < (s.scope sc).refs → A l) :
    Owned A t := by
  obtain ⟨m, hm, rfl⟩ := map_eq_some_iff.mp hact
  have hfollows := h.memory.follows hm
  refine ⟨hfollows.inv, ?_, ?_⟩
  · exact fun l sc hvia => ⟨(h.via l sc hvia).1.trans_le hfollows.leases, (h.via l sc hvia).2⟩
  · intro sc hsc
    exact (h.owns sc hsc).follows hfollows (fun l hl => (h.via l sc hl).1)
      (fun l hmem hvia hrefs => hclose l sc hmem hvia hrefs)

theorem setScope (h : Owned A s) {sc : Nat} {f : Scope → Scope}
    (howns : Owns A s.memory.pool s.via sc (f (s.scope sc))) : Owned A (s.setScope sc f) := by
  refine ⟨h.memory, h.via, ?_⟩
  intro sc' hsc'
  show Owns A s.memory.pool s.via sc' (update s.scope sc _ sc')
  by_cases hsame : sc' = sc
  · subst hsame
    rw [update_self]
    exact howns
  · rw [update_of_ne hsame]
    exact h.owns sc' hsc'

/-- A lease that no scope knows becomes one of the scope `sc`. -/
theorem through (h : Owned A s) {sc : Nat} (hsc : sc < s.scopes) (hl : l < s.memory.pool.leases)
    (hnone : s.via l = none) (hmemory : t.memory = s.memory) (hscopes : t.scopes = s.scopes)
    (hvia : t.via = update s.via l (some sc))
    (hothers : ∀ sc' ≠ sc, t.scope sc' = s.scope sc')
    (howns : Owns A s.memory.pool t.via sc (t.scope sc)) : Owned A t := by
  have hback : ∀ l' sc', t.via l' = some sc' → l' = l ∧ sc' = sc ∨ s.via l' = some sc' := by
    intro l' sc' hl'
    rw [hvia] at hl'
    by_cases hsame : l' = l
    · subst hsame
      rw [update_self] at hl'
      exact .inl ⟨rfl, (some.inj hl').symm⟩
    · rw [update_of_ne hsame] at hl'
      exact .inr hl'
  refine ⟨hmemory ▸ h.memory, ?_, ?_⟩
  · intro l' sc' hl'
    rw [hmemory, hscopes]
    rcases hback l' sc' hl' with ⟨rfl, rfl⟩ | hold
    · exact ⟨hl, hsc⟩
    · exact h.via l' sc' hold
  · intro sc' hsc'
    rw [hmemory]
    by_cases hsame : sc' = sc
    · subst hsame
      exact howns
    rw [hothers sc' hsame]
    refine (h.owns sc' (hscopes ▸ hsc')).congr_via fun l' => ⟨fun hl' => ?_, fun hl' => ?_⟩
    · exact (hback l' sc' hl').resolve_left fun hnew => hsame hnew.2
    · rw [hvia]
      exact via_made hnone hl'

end Owned

namespace System

variable {A : Nat → Prop} {s t : System}

theorem act_scope (hact : s.act actions = some t) :
    t.scope = s.scope ∧ t.scopes = s.scopes ∧ t.via = s.via ∧ t.token = s.token ∧
      t.tokens = s.tokens := by
  obtain ⟨m, -, rfl⟩ := map_eq_some_iff.mp hact
  exact ⟨rfl, rfl, rfl, rfl, rfl⟩

theorem unlocked_iff {sc : Nat} :
    s.unlocked sc = true ↔ sc < s.scopes ∧ (s.scope sc).closing = none := by
  simp only [unlocked, Bool.and_eq_true, decide_eq_true_eq, isNone_iff_eq_none]

/-- The scope after a lease was made through it. -/
def listed (scope : Scope) (l : Nat) : Scope :=
  if scope.refs = 0 then scope else { scope with leases := scope.leases ++ [l] }

theorem newLease_open (m : State) {m' : State} {owner : Nat}
    (hstep : m.step (.newLease owner) = some m') :
    (m'.pool.lease m.pool.leases).closed = false ∧ m'.pool.leases = m.pool.leases + 1 := by
  obtain ⟨-, heq⟩ := ite_none_right_eq_some.mp hstep
  cases heq
  refine ⟨?_, rfl⟩
  show (update m.pool.lease m.pool.leases _ m.pool.leases).closed = false
  rw [update_self]

end System

namespace Owned

variable {A : Nat → Prop} {s t : System}

theorem leaseThrough (h : Owned A s) {sc owner : Nat} (hsc : sc < s.scopes)
    (hstep : s.leaseThrough sc owner = some t) :
    Owned A t ∧ t.via = update s.via s.nextLease (some sc) ∧ t.scopes = s.scopes ∧
      t.scope = update s.scope sc (System.listed (s.scope sc) s.nextLease) := by
  have hnone := h.nextLease_via
  unfold System.leaseThrough at hstep
  split at hstep
  · rename_i hrefs
    obtain ⟨u, hact, rfl⟩ := map_eq_some_iff.mp hstep
    have hu : Owned A u := by
      refine h.act hact fun l sc' hmem hvia _ => ?_
      rw [show l = s.nextLease by simpa using hmem, hnone] at hvia
      cases hvia
    obtain ⟨hscope, hscopes, hvia, -⟩ := System.act_scope hact
    obtain ⟨m, hm, rfl⟩ := map_eq_some_iff.mp hact
    obtain ⟨m₁, hmake, hm⟩ := Machine.run_cons.mp hm
    obtain ⟨m₂, hclose, hm⟩ := Machine.run_cons.mp hm
    cases hm
    obtain ⟨-, hleases⟩ := System.newLease_open s.memory hmake
    have hin : s.nextLease < m₁.pool.leases := by
      rw [hleases]
      exact Nat.lt_succ_self _
    have hmemory := h.memory.step hmake
    have hclosed : (m.pool.lease s.nextLease).closed = true := by
      rw [hmemory.step_closed hclose hin]
      simp
    have howns := (hu.owns sc (hscopes ▸ hsc)).late hnone hrefs hclosed
    refine ⟨hu.through (hscopes ▸ hsc) ?_ hnone rfl rfl rfl (fun _ _ => rfl) howns, rfl, rfl, ?_⟩
    · exact hin.trans_le (hmemory.step_tables hclose).2
    · rw [System.listed, if_pos hrefs, update_eq_self]
      rfl
  · rename_i hrefs
    obtain ⟨u, hact, rfl⟩ := map_eq_some_iff.mp hstep
    have hu : Owned A u := by
      refine h.act hact fun l sc' hmem => ?_
      simp at hmem
    obtain ⟨hscope, hscopes, hvia, -⟩ := System.act_scope hact
    obtain ⟨m, hm, rfl⟩ := map_eq_some_iff.mp hact
    obtain ⟨m₁, hmake, hm⟩ := Machine.run_cons.mp hm
    cases hm
    obtain ⟨hopen, hleases⟩ := System.newLease_open s.memory hmake
    have howns := (hu.owns sc (hscopes ▸ hsc)).listing hnone hrefs hopen
    have hscope' : System.listed (s.scope sc) s.nextLease =
        { s.scope sc with leases := (s.scope sc).leases ++ [s.nextLease] } := if_neg hrefs
    refine ⟨hu.through (hscopes ▸ hsc) ?_ hnone rfl rfl rfl ?_ ?_, rfl, rfl, ?_⟩
    · rw [hleases]
      exact Nat.lt_succ_self _
    · exact fun sc' hne => update_of_ne hne _ _
    · show Owns A _ _ sc (update s.scope sc _ sc)
      rw [update_self]
      exact howns
    · rw [hscope']
      rfl

end Owned

end Sink.Capacity
