import Sink.Capacity.ScopeOwnership

/-!
# Scopes in any interleaving

Every step of scopes, their release functions and the pool below them keeps
`Owned`. A lease made through a scope is therefore open while the scope is in
use, and closed and empty once the last release is through.
-/

namespace Sink.Capacity

open Function Option

/-! ## A closed lease grants nothing -/

namespace Pool

variable (p : Pool)

theorem enter_closed (call : Nat) {c : GrowCall} (hclosed : (p.lease c.lease).closed = true)
    (ctxErr : Option ContextErr) : (p.enter call c ctxErr).2 ≠ .done none := by
  unfold enter
  split
  · simp
  cases ctxErr with
  | some err => simp
  | none => simp

theorem resume_closed (call : Nat) {c : GrowCall} (hclosed : (p.lease c.lease).closed = true)
    (waitDone : Bool) (ctxErr : Option ContextErr) :
    (p.resume call c waitDone ctxErr).2 ≠ none := by
  unfold resume
  simp [hclosed]

end Pool

namespace State

variable {s s' : State}

theorem settle_call_lease (s : State) (call : Nat) (pool : Pool) (progress : Progress) (c : Nat) :
    ((s.settle call pool progress).call c).lease = (s.call c).lease := by
  show (update s.call call _ c).lease = _
  by_cases hc : c = call
  · rw [hc, update_self]
  · rw [update_of_ne hc]

/-- The lease is closed, and of the calls for it only those in `D` succeeded. -/
structure Refuses (D : Nat → Prop) (l : Nat) (s : State) : Prop where
  inv : s.Inv
  lt : l < s.pool.leases
  closed : (s.pool.lease l).closed = true
  only : ∀ c < s.calls, (s.call c).lease = l → (s.call c).progress = .done none → D c

theorem Refuses.step {D : Nat → Prop} {l : Nat} (h : Refuses D l s) {a : Action}
    (hstep : s.step a = some s') : Refuses D l s' := by
  have hclosed : (s'.pool.lease l).closed = true := by
    rw [h.inv.step_closed hstep h.lt, h.closed]
    rfl
  refine ⟨h.inv.step hstep, h.lt.trans_le (h.inv.step_tables hstep).2, hclosed, ?_⟩
  intro c hc hl hdone
  by_cases hold : c < s.calls
  · by_cases hmoved : s'.call c = s.call c
    · rw [hmoved] at hl hdone
      exact h.only c hold hl hdone
    -- a call for a closed lease fails in both of its critical sections
    rcases step_call hstep hold hmoved with ⟨ctxErr, rfl⟩ | ⟨waitDone, ctxErr, rfl⟩
    · obtain ⟨-, heq⟩ := ite_none_right_eq_some.mp hstep
      cases heq
      rw [settle_call_lease] at hl
      rw [settle_progress] at hdone
      exact absurd hdone (s.pool.enter_closed c (hl ▸ h.closed) ctxErr)
    · obtain ⟨-, heq⟩ := ite_none_right_eq_some.mp hstep
      cases heq
      rw [settle_call_lease] at hl
      rw [settle_progress] at hdone
      exact absurd (Progress.done.inj hdone)
        (s.pool.resume_closed c (hl ▸ h.closed) waitDone ctxErr)
  · -- the call is new, and `Grow` has not even begun
    cases a with
    | grow l' bytes phase =>
      obtain ⟨-, heq⟩ := ite_none_right_eq_some.mp hstep
      cases heq
      have hsame : c = s.calls := by
        have : c < s.calls + 1 := hc
        omega
      subst hsame
      have hentering : (update s.call s.calls
        (⟨l', bytes, phase, .entering⟩ : GrowCall) s.calls).progress = .done none := hdone
      rw [update_self] at hentering
      cases hentering
    | newOwner =>
      cases hstep
      exact absurd hc hold
    | _ =>
      obtain ⟨-, heq⟩ := ite_none_right_eq_some.mp hstep
      cases heq
      exact absurd hc hold

theorem Refuses.run {D : Nat → Prop} {l : Nat} (h : Refuses D l s) {actions : List Action}
    (hrun : Machine.run State.step s actions = some s') : Refuses D l s' :=
  Machine.run_invariant (fun _ _ _ hr hs => Refuses.step hr hs) h hrun

end State

/-! ## Steps -/

variable {tok : Nat} {producer : Option Nat} {a : ScopeAction}

namespace Owned

variable {A : Nat → Prop} {s t : System}
variable {sc : Nat}

section

variable (h : Owned A s)

include h

theorem newScope (hstep : s.newScope = some t) : Owned A t := by
  obtain ⟨u, hact, rfl⟩ := map_eq_some_iff.mp hstep
  have hu : Owned A u := h.act hact fun l sc hmem => by simp at hmem
  obtain ⟨m, hm, rfl⟩ := map_eq_some_iff.mp hact
  obtain ⟨m₁, hm₁, hm⟩ := Machine.run_cons.mp hm
  obtain ⟨m₂, hm₂, hm⟩ := Machine.run_cons.mp hm
  obtain ⟨m₃, hm₃, hm⟩ := Machine.run_cons.mp hm
  cases hm
  cases hm₁
  have hinv := (h.memory.step (a := .newOwner) rfl).step hm₂
  obtain ⟨hopen₁, hleases₁⟩ := System.newLease_open _ hm₂
  obtain ⟨hopen₂, hleases₂⟩ := System.newLease_open _ hm₃
  have hl : m₂.pool.leases = s.nextLease + 1 := hleases₁
  rw [hl] at hopen₂ hleases₂
  have hopen : ∀ l, l = s.nextLease ∨ l = s.nextLease + 1 → (m.pool.lease l).closed = false := by
    rintro l (rfl | rfl)
    · rw [hinv.step_closed hm₃ (by omega)]
      have hopen₁ : (m₂.pool.lease s.nextLease).closed = false := hopen₁
      rw [hopen₁]
      rfl
    · exact hopen₂
  let via := update (update s.via s.nextLease (some s.scopes))
    (s.nextLease + 1) (some s.scopes)
  have hvia_iff : ∀ l sc, via l = some sc ↔
      (l = s.nextLease ∨ l = s.nextLease + 1) ∧ sc = s.scopes ∨ s.via l = some sc := by
    intro l sc
    by_cases hnew : l < s.nextLease
    · rw [show via l = s.via l by
        simp only [via]
        rw [update_of_ne (by omega), update_of_ne (by omega)]]
      exact ⟨.inr, fun hor => hor.resolve_left fun hbad => by omega⟩
    · have hnone : s.via l ≠ some sc := fun hl => hnew (h.via l sc hl).1
      simp only [hnone, or_false, via, update_apply]
      by_cases h₂ : l = s.nextLease + 1
      · simp [h₂, eq_comm]
      by_cases h₁ : l = s.nextLease
      · simp [h₁, eq_comm]
      · simp [h₁, h₂, hnone]
  have howner : s.memory.pool.owners < m.pool.owners :=
    (Nat.lt_succ_self _).trans_le
      (((h.memory.step (a := .newOwner) rfl).step_tables hm₂).1.trans (hinv.step_tables hm₃).1)
  refine ⟨hu.memory, ?_, ?_⟩
  · intro l sc hl'
    rcases (hvia_iff l sc).mp hl' with ⟨hnew, rfl⟩ | hold
    · refine ⟨?_, Nat.lt_succ_self _⟩
      show l < m.pool.leases
      omega
    · exact ⟨(hu.via l sc hold).1, Nat.lt_succ_of_lt (hu.via l sc hold).2⟩
  · intro sc hsc
    show Owns A m.pool via sc (update s.scope s.scopes _ sc)
    by_cases hnew : sc = s.scopes
    · subst hnew
      rw [update_self]
      have hmade : ∀ l, via l = some s.scopes ↔ l = s.nextLease ∨ l = s.nextLease + 1 := by
        intro l
        rw [hvia_iff]
        exact ⟨fun hor => hor.elim And.left fun hold => absurd (h.via l _ hold).2 (lt_irrefl _),
          fun hnew => .inl ⟨hnew, rfl⟩⟩
      exact {
        owner := howner
        input := (hmade _).mpr (.inl rfl)
        output := (hmade _).mpr (.inr rfl)
        outputs := fun _ _ hnone => nomatch hnone
        listed := fun l hl' => (hmade l).mpr (by simpa using hl')
        unlocked := fun _ => rfl
        complete := fun _ l hl' => by simpa using (hmade l).mp hl'
        live := fun _ l hl' hc => by
          rw [hopen l ((hmade l).mp hl')] at hc
          cases hc
        closing := fun _ hnone => nomatch hnone
        released := fun hzero => nomatch hzero }
    · rw [update_of_ne hnew]
      have hsc' : sc < s.scopes := by
        have : sc < s.scopes + 1 := hsc
        omega
      refine (hu.owns sc hsc').congr_via fun l => ?_
      rw [hvia_iff]
      exact ⟨fun hor => hor.resolve_left fun hbad => hnew hbad.2, .inr⟩

theorem newLease (hstep : s.newLease sc = some t) :
    Owned A t ∧ t.via = update s.via s.nextLease (some sc) := by
  obtain ⟨hfree, hstep⟩ := ite_none_right_eq_some.mp hstep
  obtain ⟨ht, hvia, -⟩ := h.leaseThrough (System.unlocked_iff.mp hfree).1 hstep
  exact ⟨ht, hvia⟩

theorem retain (hstep : s.retain sc = some t) : Owned A t := by
  obtain ⟨hfree, hstep⟩ := ite_none_right_eq_some.mp hstep
  have hsc := (System.unlocked_iff.mp hfree).1
  split at hstep
  · cases hstep
    exact ⟨h.memory, h.via, h.owns⟩
  rename_i hrefs
  cases hstep
  have ht : Owned A (s.setScope sc fun scope => { scope with refs := scope.refs + 1 }) :=
    h.setScope ((h.owns sc hsc).retain hrefs)
  exact ⟨ht.memory, ht.via, ht.owns⟩

theorem release (hstep : s.release sc = some t) : Owned A t := by
  obtain ⟨hfree, hstep⟩ := ite_none_right_eq_some.mp hstep
  obtain ⟨hsc, hclosing⟩ := System.unlocked_iff.mp hfree
  split at hstep
  · cases hstep
    exact h
  rename_i hrefs
  cases hstep
  exact h.setScope ((h.owns sc hsc).drop hrefs)

theorem callRelease (hstep : s.callRelease tok = some t) : Owned A t := by
  obtain ⟨-, hstep⟩ := ite_none_right_eq_some.mp hstep
  split at hstep
  · obtain ⟨u, hrelease, rfl⟩ := map_eq_some_iff.mp hstep
    have hu := h.release hrelease
    exact ⟨hu.memory, hu.via, hu.owns⟩
  · cases hstep
    exact h

theorem closeNext (hstep : s.closeNext sc = some t) : Owned A t := by
  obtain ⟨hsc, hstep⟩ := ite_none_right_eq_some.mp hstep
  have howns := h.owns sc hsc
  split at hstep
  · cases hstep
  · rename_i hclosing
    cases hstep
    exact h.setScope (howns.finish hclosing)
  · rename_i l rest hclosing
    obtain ⟨u, hact, rfl⟩ := map_eq_some_iff.mp hstep
    have hl := howns.closing _ hclosing l List.mem_cons_self
    have hu : Owned A u := by
      refine h.act hact fun l' sc' hmem hvia hrefs => ?_
      -- the lease belongs to this scope only, which is not in use any more
      rw [show l' = l by simpa using hmem, hl] at hvia
      cases hvia
      rw [howns.unlocked hrefs] at hclosing
      cases hclosing
    obtain ⟨m, hm, rfl⟩ := map_eq_some_iff.mp hact
    obtain ⟨m₁, hm₁, hm⟩ := Machine.run_cons.mp hm
    cases hm
    refine hu.setScope ((hu.owns sc hsc).next hclosing ?_)
    rw [h.memory.step_closed hm₁ (h.via l sc hl).1]
    simp

theorem outputFrom {bytes : Int} (hstep : s.outputFrom sc producer bytes = some t) : Owned A t := by
  have hgrow : ∀ {u : System} {l : Nat}, Owned A u →
      u.act [.grow l (int64 (2 * bytes)) .response] = some t → Owned A t :=
    fun hu hact => hu.act hact fun l sc hmem => by simp at hmem
  obtain ⟨⟨hsc, -⟩, hstep⟩ := ite_none_right_eq_some.mp hstep
  split at hstep
  · exact hgrow h hstep
  rename_i owner _
  obtain ⟨hfree, hstep⟩ := ite_none_right_eq_some.mp hstep
  split at hstep
  · exact hgrow h hstep
  obtain ⟨u, hmake, hstep⟩ := bind_eq_some_iff.mp hstep
  obtain ⟨hu, hvia, hscopes, -⟩ := h.leaseThrough hsc hmake
  have howns := hu.owns sc (hscopes ▸ hsc)
  refine hgrow (hu.setScope { howns with outputs := ?_ }) hstep
  intro o l hl
  have hl : update (u.scope sc).outputs owner (some s.nextLease) o = some l := hl
  by_cases ho : o = owner
  · rw [ho, update_self] at hl
    cases hl
    rw [hvia, update_self]
  · rw [update_of_ne ho] at hl
    exact howns.outputs o l hl

theorem releaseOutputFrom {bytes : Int} (hstep : s.releaseOutputFrom sc producer bytes = some t) :
    Owned A t := by
  obtain ⟨-, hstep⟩ := ite_none_right_eq_some.mp hstep
  split at hstep
  · cases hstep
    exact h
  have hshrink : ∀ {l : Nat}, s.act [.shrink l (int64 (2 * bytes))] = some t → Owned A t :=
    fun hact => h.act hact fun l sc hmem => by simp at hmem
  dsimp only at hstep
  split at hstep
  · cases hstep
    exact h
  · exact hshrink hstep

/-- Every step keeps the books, where `A` knows the leases closed directly. -/
theorem step (hclose : ∀ l, a = .memory (.close l) → A l) (hstep : s.step a = some t) :
    Owned A t := by
  cases a with
  | memory action =>
    refine h.act hstep fun l _ hmem _ _ => hclose l ?_
    rw [List.mem_singleton.mp hmem]
  | newScope => exact h.newScope hstep
  | newLease sc => exact (h.newLease hstep).1
  | retain sc => exact h.retain hstep
  | callRelease tok => exact h.callRelease hstep
  | release sc => exact h.release hstep
  | closeNext sc => exact h.closeNext hstep
  | outputFrom sc producer bytes => exact h.outputFrom hstep
  | releaseOutputFrom sc producer bytes => exact h.releaseOutputFrom hstep

theorem run {actions : List ScopeAction} (hclose : ∀ l, .memory (.close l) ∈ actions → A l)
    (hrun : Machine.run System.step s actions = some t) : Owned A t :=
  Machine.run_invariant_of (P := fun a => ∀ l, a = .memory (.close l) → A l)
    (fun _ _ _ ha hs hstep => hs.step ha hstep) (fun a ha l heq => hclose l (by rwa [← heq])) h hrun

end

theorem start {opts : Options} {pool : Pool} (hnew : new opts = .ok pool) : Owned A (.start pool) :=
  ⟨new_inv hnew, (fun _ _ hnone => nomatch hnone), (fun _ hsc => nomatch hsc)⟩

end Owned

namespace System

variable {s t : System}
variable {sc : Nat}

/-! ## What a step does to memory, to scopes and to release functions -/

/-- What a step can do to a scope that is not in use any more: its last
`Release` goes on closing leases. -/
def Fades (scope scope' : Scope) : Prop :=
  scope.refs = 0 → scope'.refs = 0 ∧
    ∀ rest', scope'.closing = some rest' → ∃ rest, scope.closing = some rest ∧ rest' ⊆ rest

theorem Fades.refl (scope : Scope) : Fades scope scope :=
  fun hzero => ⟨hzero, fun rest hrest => ⟨rest, hrest, List.Subset.refl _⟩⟩

/-- The memory moves by pool actions, scopes fade, and a release function that
was called stays so. -/
structure Moves (s t : System) : Prop where
  memory : ∃ actions, Machine.run State.step s.memory actions = some t.memory
  scopes : s.scopes ≤ t.scopes
  fades : ∀ sc < s.scopes, Fades (s.scope sc) (t.scope sc)
  tokens : s.tokens ≤ t.tokens
  called : ∀ tok < s.tokens, (s.token tok).called = true → (t.token tok).called = true

theorem Moves.refl (s : System) : Moves s s :=
  ⟨⟨[], rfl⟩, le_rfl, fun _ _ => .refl _, le_rfl, fun _ _ h => h⟩

theorem Moves.trans {u : System} (h₁ : Moves s t) (h₂ : Moves t u) : Moves s u where
  memory := by
    obtain ⟨as, has⟩ := h₁.memory
    obtain ⟨bs, hbs⟩ := h₂.memory
    exact ⟨as ++ bs, Machine.run_append.mpr ⟨_, has, hbs⟩⟩
  scopes := h₁.scopes.trans h₂.scopes
  fades sc hsc hzero := by
    obtain ⟨hzero', hsub⟩ := h₁.fades sc hsc hzero
    obtain ⟨hzero'', hsub'⟩ := h₂.fades sc (hsc.trans_le h₁.scopes) hzero'
    refine ⟨hzero'', fun rest'' hrest'' => ?_⟩
    obtain ⟨rest', hrest', h₂⟩ := hsub' rest'' hrest''
    obtain ⟨rest, hrest, h₁⟩ := hsub rest' hrest'
    exact ⟨rest, hrest, List.Subset.trans h₂ h₁⟩
  tokens := h₁.tokens.trans h₂.tokens
  called tok htok h := h₂.called tok (htok.trans_le h₁.tokens) (h₁.called tok htok h)

theorem Moves.act {actions : List Action} (hact : s.act actions = some t) : Moves s t := by
  obtain ⟨m, hm, rfl⟩ := map_eq_some_iff.mp hact
  exact ⟨⟨actions, hm⟩, le_rfl, fun _ _ => .refl _, le_rfl, fun _ _ h => h⟩

theorem Moves.setScope (s : System) {f : Scope → Scope} (hf : Fades (s.scope sc) (f (s.scope sc))) :
    Moves s (s.setScope sc f) := by
  refine ⟨⟨[], rfl⟩, le_rfl, ?_, le_rfl, fun _ _ h => h⟩
  intro sc' _
  show Fades (s.scope sc') (update s.scope sc _ sc')
  by_cases hsame : sc' = sc
  · subst hsame
    rw [update_self]
    exact hf
  · rw [update_of_ne hsame]
    exact .refl _

theorem Moves.made (s : System) (l sc : Nat) : Moves s (s.made l sc) :=
  ⟨⟨[], rfl⟩, le_rfl, fun _ _ => .refl _, le_rfl, fun _ _ h => h⟩

theorem Moves.leaseThrough {owner : Nat} (hstep : s.leaseThrough sc owner = some t) :
    Moves s t := by
  unfold System.leaseThrough at hstep
  split at hstep
  · obtain ⟨u, hact, rfl⟩ := map_eq_some_iff.mp hstep
    exact (Moves.act hact).trans (.made u _ _)
  obtain ⟨u, hact, rfl⟩ := map_eq_some_iff.mp hstep
  refine (Moves.act hact).trans (.trans (.setScope u ?_) (.made _ _ _))
  exact fun hzero => Fades.refl (u.scope sc) hzero

theorem Moves.release (hstep : s.release sc = some t) : Moves s t := by
  obtain ⟨-, hstep⟩ := ite_none_right_eq_some.mp hstep
  split at hstep
  · cases hstep
    exact .refl s
  rename_i hrefs
  cases hstep
  exact .setScope s fun hzero => absurd hzero hrefs

theorem Moves.closeNext (hstep : s.closeNext sc = some t) : Moves s t := by
  obtain ⟨-, hstep⟩ := ite_none_right_eq_some.mp hstep
  split at hstep
  · cases hstep
  · cases hstep
    exact .setScope s fun hzero => ⟨hzero, fun _ hnone => nomatch hnone⟩
  · rename_i l rest hclosing
    obtain ⟨u, hact, rfl⟩ := map_eq_some_iff.mp hstep
    refine (Moves.act hact).trans (.setScope u fun hzero => ⟨hzero, fun rest' hrest' => ?_⟩)
    rw [(act_scope hact).1]
    cases hrest'
    exact ⟨l :: rest, hclosing, List.subset_cons_self _ _⟩

theorem Moves.outputFrom {bytes : Int} (hstep : s.outputFrom sc producer bytes = some t) :
    Moves s t := by
  obtain ⟨-, hstep⟩ := ite_none_right_eq_some.mp hstep
  split at hstep
  · exact .act hstep
  obtain ⟨-, hstep⟩ := ite_none_right_eq_some.mp hstep
  split at hstep
  · exact .act hstep
  obtain ⟨u, hmake, hstep⟩ := bind_eq_some_iff.mp hstep
  refine (Moves.leaseThrough hmake).trans (.trans (.setScope u ?_) (.act hstep))
  exact fun hzero => Fades.refl (u.scope sc) hzero

theorem Moves.newScope (hstep : s.newScope = some t) : Moves s t := by
  obtain ⟨u, hact, rfl⟩ := map_eq_some_iff.mp hstep
  refine (Moves.act hact).trans ⟨⟨[], rfl⟩, Nat.le_succ _, fun sc hsc => ?_, le_rfl, fun _ _ h => h⟩
  show Fades (u.scope sc) (update u.scope u.scopes _ sc)
  rw [update_of_ne (ne_of_lt hsc)]
  exact .refl _

theorem Moves.retain (hstep : s.retain sc = some t) : Moves s t := by
  have htoken : ∀ (u : System) (scope : Option Nat), Moves u
      { u with
        tokens := u.tokens + 1
        token := update u.token u.tokens ⟨scope, false⟩ } := by
    intro u scope
    refine ⟨⟨[], rfl⟩, le_rfl, fun _ _ => .refl _, Nat.le_succ _, fun tok htok hcalled => ?_⟩
    show (update u.token u.tokens _ tok).called = true
    rw [update_of_ne (ne_of_lt htok), hcalled]
  obtain ⟨-, hstep⟩ := ite_none_right_eq_some.mp hstep
  split at hstep
  · cases hstep
    exact htoken s none
  rename_i hrefs
  cases hstep
  exact (Moves.setScope s fun hzero => absurd hzero hrefs).trans (htoken _ (some sc))

theorem Moves.callRelease (hstep : s.callRelease tok = some t) : Moves s t := by
  obtain ⟨-, hstep⟩ := ite_none_right_eq_some.mp hstep
  split at hstep
  · obtain ⟨u, hrelease, rfl⟩ := map_eq_some_iff.mp hstep
    refine (Moves.release hrelease).trans
      ⟨⟨[], rfl⟩, le_rfl, fun _ _ => .refl _, le_rfl, fun tok' _ hcalled => ?_⟩
    show (update u.token tok _ tok').called = true
    by_cases hsame : tok' = tok
    · rw [hsame, update_self]
    · rw [update_of_ne hsame, hcalled]
  · cases hstep
    exact .refl s

theorem Moves.step (hstep : s.step a = some t) : Moves s t := by
  cases a with
  | memory action => exact .act hstep
  | newScope => exact .newScope hstep
  | newLease sc => exact .leaseThrough (ite_none_right_eq_some.mp hstep).2
  | retain sc => exact .retain hstep
  | callRelease tok => exact .callRelease hstep
  | release sc => exact .release hstep
  | closeNext sc => exact .closeNext hstep
  | outputFrom sc producer bytes => exact .outputFrom hstep
  | releaseOutputFrom sc producer bytes =>
    obtain ⟨-, hstep⟩ := ite_none_right_eq_some.mp hstep
    split at hstep
    · cases hstep
      exact .refl s
    dsimp only at hstep
    split at hstep
    · cases hstep
      exact .refl s
    · exact .act hstep

theorem Moves.run {actions : List ScopeAction}
    (hrun : Machine.run System.step s actions = some t) : Moves s t :=
  Machine.run_invariant (fun _ _ _ hm hstep => Moves.trans hm (.step hstep)) (.refl s) hrun

end System

/-! ## Any interleaving -/

/-- The last `Release` gets through: nothing stops it from closing the leases
that are left. -/
theorem Owned.closing_finishes {A : Nat → Prop} {s : System} (h : Owned A s) {sc : Nat}
    (hsc : sc < s.scopes) {rest : List Nat} (hclosing : (s.scope sc).closing = some rest) :
    ∃ t, Machine.run System.step s (List.replicate (rest.length + 1) (.closeNext sc)) = some t ∧
      t.unlocked sc = true := by
  induction rest generalizing s with
  | nil =>
    refine ⟨s.setScope sc fun scope => { scope with leases := [], closing := none }, ?_, ?_⟩
    · refine Machine.run_cons.mpr ⟨_, ?_, rfl⟩
      show s.closeNext sc = _
      unfold System.closeNext
      rw [if_pos hsc, hclosing]
    · refine System.unlocked_iff.mpr ⟨hsc, ?_⟩
      show (update s.scope sc _ sc).closing = none
      rw [update_self]
  | cons l rest ih =>
    have hl := h.via l sc ((h.owns sc hsc).closing _ hclosing l List.mem_cons_self)
    have hstep : ∃ u, s.closeNext sc = some u ∧ u.scopes = s.scopes ∧
        (u.scope sc).closing = some rest := by
      unfold System.closeNext System.act
      rw [if_pos hsc, hclosing]
      have hclose : Machine.run State.step s.memory [.close l] =
          some { s.memory with pool := s.memory.pool.close l } := by
        exact Machine.run_cons.mpr ⟨_, if_pos hl.1, rfl⟩
      dsimp only
      rw [hclose]
      refine ⟨_, rfl, rfl, ?_⟩
      show (update s.scope sc _ sc).closing = some rest
      rw [update_self]
    obtain ⟨u, hstep, hscopes, hrest⟩ := hstep
    obtain ⟨t, hrun, hfree⟩ := ih (h.closeNext hstep) (hscopes ▸ hsc) hrest
    exact ⟨t, Machine.run_cons.mpr ⟨u, hstep, hrun⟩, hfree⟩

/-- The scope has no references left and its last `Release` is through. -/
def System.released (s : System) (sc : Nat) : Prop :=
  s.unlocked sc = true ∧ (s.scope sc).refs = 0

/-- The lease is closed and holds nothing. -/
def System.emptied (s : System) (l : Nat) : Prop :=
  (s.memory.pool.lease l).closed = true ∧ (s.memory.pool.lease l).bytes = 0

theorem Owned.emptied {A : Nat → Prop} {s : System} (h : Owned A s) {l sc : Nat}
    (hvia : s.via l = some sc) (hreleased : s.released sc) : s.emptied l := by
  obtain ⟨hfree, hrefs⟩ := hreleased
  obtain ⟨hsc, hclosing⟩ := System.unlocked_iff.mp hfree
  have hclosed : (s.memory.pool.lease l).closed = true := by
    refine ((h.owns sc hsc).released hrefs l hvia).resolve_right ?_
    rintro ⟨rest, hrest, -⟩
    rw [hclosing] at hrest
    cases hrest
  exact ⟨hclosed, h.memory.ok.empty l (h.via l sc hvia).1 hclosed⟩

theorem System.Moves.released {s t : System} (h : Moves s t) {sc : Nat}
    (hreleased : s.released sc) : t.released sc := by
  obtain ⟨hfree, hrefs⟩ := hreleased
  obtain ⟨hsc, hclosing⟩ := unlocked_iff.mp hfree
  obtain ⟨hrefs', hsub⟩ := h.fades sc hsc hrefs
  refine ⟨unlocked_iff.mpr ⟨hsc.trans_le h.scopes, ?_⟩, hrefs'⟩
  cases hclosing' : (t.scope sc).closing with
  | none => rfl
  | some rest' =>
    obtain ⟨rest, hrest, -⟩ := hsub rest' hclosing'
    rw [hclosing] at hrest
    cases hrest

section Runs

variable {opts : Options} {pool : Pool} {actions : List ScopeAction} {s : System}

/-- A scope owns the leases made through it: none is closed while the scope is
in use, all are closed and empty after the last release, those made later
included, none of them grants anything then, and a release function counts
once. -/
theorem scope_owns_leases (hnew : new opts = .ok pool)
    (hrun : Machine.run System.step (.start pool) actions = some s) :
    -- all the leases of a scope are recorded
    (∀ sc < s.scopes, s.via (s.scope sc).input = some sc ∧ s.via (s.scope sc).output = some sc ∧
      (∀ l ∈ (s.scope sc).leases, s.via l = some sc) ∧
      ∀ owner l, (s.scope sc).outputs owner = some l → s.via l = some sc) ∧
    -- in use: only somebody else can have closed one
    (∀ sc l, s.via l = some sc → 0 < (s.scope sc).refs →
      (s.memory.pool.lease l).closed = true → .memory (.close l) ∈ actions) ∧
    -- the last release gets through
    (∀ sc < s.scopes, ∀ rest, (s.scope sc).closing = some rest →
      ∃ t, Machine.run System.step s (List.replicate (rest.length + 1) (.closeNext sc)) = some t ∧
        t.unlocked sc = true) ∧
    -- from then on, whatever happens
    (∀ sc, s.released sc → ∀ later t, Machine.run System.step s later = some t → t.released sc ∧
      ∀ l, t.via l = some sc → t.emptied l ∧
        (s.via l = some sc → ∀ c < t.memory.calls, (t.memory.call c).lease = l →
          (t.memory.call c).progress = .done none →
          c < s.memory.calls ∧ (s.memory.call c).progress = .done none)) ∧
    (∀ sc t, s.step (.newLease sc) = some t → t.via s.nextLease = some sc) ∧
    -- release functions
    (∀ tok sc t, s.token tok = ⟨some sc, false⟩ → s.step (.callRelease tok) = some t →
      (t.scope sc).refs = (s.scope sc).refs - 1 ∧ (t.token tok).called = true) ∧
    (∀ tok < s.tokens, (s.token tok).called = true →
      ∀ later t, Machine.run System.step s later = some t →
        t.step (.callRelease tok) = some t) := by
  have howned : Owned (fun l => .memory (.close l) ∈ actions) s :=
    (Owned.start hnew).run (fun _ hmem => hmem) hrun
  refine ⟨?_, ?_, ?_, ?_, ?_, ?_, ?_⟩
  · intro sc hsc
    have howns := howned.owns sc hsc
    exact ⟨howns.input, howns.output, howns.listed, howns.outputs⟩
  · intro sc l hvia hrefs hclosed
    exact (howned.owns sc (howned.via l sc hvia).2).live hrefs l hvia hclosed
  · exact fun sc hsc rest hrest => howned.closing_finishes hsc hrest
  · intro sc hreleased later t hlater
    have hmoves := System.Moves.run hlater
    have htotal : Machine.run System.step (.start pool) (actions ++ later) = some t :=
      Machine.run_append.mpr ⟨s, hrun, hlater⟩
    have howned' : Owned (fun l => .memory (.close l) ∈ actions ++ later) t :=
      (Owned.start hnew).run (fun _ hmem => hmem) htotal
    refine ⟨hmoves.released hreleased, fun l hvia => ?_⟩
    refine ⟨howned'.emptied hvia (hmoves.released hreleased), fun hvia c hc hl hdone => ?_⟩
    obtain ⟨as, has⟩ := hmoves.memory
    have hrefuses : State.Refuses
        (fun c => c < s.memory.calls ∧ (s.memory.call c).progress = .done none) l s.memory :=
      ⟨howned.memory, (howned.via l sc hvia).1, (howned.emptied hvia hreleased).1,
        fun c hc _ hdone => ⟨hc, hdone⟩⟩
    exact (hrefuses.run has).only c hc hl hdone
  · intro sc t hstep
    rw [(howned.newLease hstep).2, update_self]
  · intro tok sc t htoken hstep
    obtain ⟨-, hstep⟩ := ite_none_right_eq_some.mp hstep
    rw [htoken] at hstep
    obtain ⟨u, hrelease, rfl⟩ := map_eq_some_iff.mp hstep
    refine ⟨?_, by simp⟩
    obtain ⟨-, hrelease⟩ := ite_none_right_eq_some.mp hrelease
    split at hrelease
    · rename_i hzero
      cases hrelease
      rw [hzero]
    · cases hrelease
      show (update s.scope sc _ sc).refs = _
      rw [update_self]
  · intro tok htok hcalled later t hlater
    have hmoves := System.Moves.run hlater
    have hcalled' := hmoves.called tok htok hcalled
    show t.callRelease tok = some t
    unfold System.callRelease
    rw [if_pos (htok.trans_le hmoves.tokens)]
    split
    · rename_i htoken
      rw [htoken] at hcalled'
      cases hcalled'
    · rfl

/-- A scope with an output lease that another scope's owner pays for, until
its last release is through. -/
def handover : List ScopeAction :=
  [.newScope, .newScope, .retain 0, .outputFrom 0 (some 1) 10, .memory (.enter 0 none),
    .callRelease 0, .callRelease 0, .release 0, .closeNext 0, .closeNext 0, .closeNext 0,
    .closeNext 0]

theorem scope_owns_leases_handover :
    ∃ s t, new ⟨1024, 50, 1, 0⟩ = .ok fresh ∧
      Machine.run System.step (.start fresh) handover = some s ∧ s.released 0 ∧
      Machine.run System.step s [.newLease 0] = some t ∧
      t.via 4 = some 0 ∧ t.emptied 4 ∧ t.via 5 = some 0 ∧ t.emptied 5 := by
  have hnew : new ⟨1024, 50, 1, 0⟩ = .ok fresh := rfl
  have hrun : Machine.run System.step (.start fresh) handover = some _ := rfl
  have hlater := (scope_owns_leases hnew hrun).2.2.2.1 0 ⟨rfl, rfl⟩ [.newLease 0] _ rfl
  exact ⟨_, _, hnew, hrun, ⟨rfl, rfl⟩, rfl, rfl, (hlater.2 4 rfl).1, rfl, (hlater.2 5 rfl).1⟩

end Runs

end Sink.Capacity
