import Sink.Batches.QueueAccounting

/-!
# Shutting down

From every state the batcher can get to, it can stop: callers that have a call
withdraw it, and the dispatcher takes all others from the channel. Together with
the accounting this makes the counters exact from the first call to the end, when
every call that was reserved has been released once.
-/

namespace Sink.Queue

open List

variable {Request : Type} {b : Batcher} {calls : Nat → BatchCall Request} {s s' : State}

/-! ## Ways to a state -/

section

variable (b calls)

/-- Some actions lead from one state to the other. -/
def Leads (s s' : State) : Prop :=
  ∃ actions, Machine.run (State.step b calls) s actions = some s'

variable {b calls}

theorem Leads.refl (s : State) : Leads b calls s s := ⟨[], rfl⟩

theorem Leads.trans {s₁ s₂ s₃ : State} (h₁ : Leads b calls s₁ s₂) (h₂ : Leads b calls s₂ s₃) :
    Leads b calls s₁ s₃ := by
  obtain ⟨actions, hrun⟩ := h₁
  obtain ⟨more, hmore⟩ := h₂
  exact ⟨actions ++ more, Machine.run_append.mpr ⟨s₂, hrun, hmore⟩⟩

theorem Leads.step (action : Action) (h : State.step b calls s action = some s') :
    Leads b calls s s' :=
  ⟨[action], Machine.run_cons.mpr ⟨s', h, rfl⟩⟩

theorem Leads.invariant (h : Leads b calls s s') (hs : Invariant b calls s) :
    Invariant b calls s' := by
  obtain ⟨actions, hrun⟩ := h
  exact Machine.run_invariant (fun _ _ _ hinv hstep => hinv.step hstep) hs hrun

end

/-! ## Callers withdraw -/

/-- The context of the batcher is done, and no caller has a call. -/
def Quiet (s : State) : Prop := s.canceled = true ∧ ∀ t, (s.stage t).holds = false

/-- Any caller can part with its call once the context is done. -/
theorem withdraw_one (hcanceled : s.canceled = true) (t : Nat) :
    ∃ s', Leads b calls s s' ∧ s'.canceled = true ∧ s'.reserved = s.reserved ∧
      (s'.stage t).holds = false ∧ ∀ u, u ≠ t → s'.stage u = s.stage u := by
  -- the last step, from any state in which the caller withdraws
  have hlast : ∀ (s₁ : State) (err : GoError), s₁.stage t = .withdrawing err →
      s₁.canceled = true → s₁.reserved = s.reserved → (∀ u, u ≠ t → s₁.stage u = s.stage u) →
      ∃ s', Leads b calls s₁ s' ∧ s'.canceled = true ∧ s'.reserved = s.reserved ∧
        (s'.stage t).holds = false ∧ ∀ u, u ≠ t → s'.stage u = s.stage u := by
    intro s₁ err hstage hc hr hothers
    have hstep : State.step b calls s₁ (.caller t .withdraw) =
        some ((s₁.release calls t).setStage t (.returned (some err))) := by
      rw [State.step, hstage]
      rfl
    refine ⟨_, .step _ hstep, hc, hr, ?_, fun u hu => ?_⟩
    · rw [State.setStage_self]
      rfl
    · rw [State.setStage_of_ne _ hu]
      exact hothers u hu
  -- the step before it
  have hturn : ∀ move : Move, State.step b calls s (.caller t move) =
      some (s.setStage t (.withdrawing shuttingDown)) →
      ∃ s', Leads b calls s s' ∧ s'.canceled = true ∧ s'.reserved = s.reserved ∧
        (s'.stage t).holds = false ∧ ∀ u, u ≠ t → s'.stage u = s.stage u := by
    intro move hstep
    obtain ⟨s', hleads, hrest⟩ := hlast (s.setStage t (.withdrawing shuttingDown)) shuttingDown
      (s.setStage_self t _) hcanceled rfl fun u hu => s.setStage_of_ne hu _
    exact ⟨s', (Leads.step _ hstep).trans hleads, hrest⟩
  cases hstage : s.stage t with
  | reserved =>
    refine hturn .look ?_
    rw [State.step, hstage, State.submit, hcanceled]
    rfl
  | sending =>
    refine hturn .refuse ?_
    rw [State.step, hstage, State.submit, hcanceled]
    rfl
  | withdrawing err => exact hlast s err hstage hcanceled rfl fun _ _ => rfl
  | ahead | reserving | accepted | returned _ =>
    exact ⟨s, .refl s, hcanceled, rfl, by rw [hstage]; rfl, fun _ _ => rfl⟩

theorem withdraw_all (h : Invariant b calls s) (hcanceled : s.canceled = true) :
    ∃ s', Leads b calls s s' ∧ Quiet s' := by
  -- one caller after the other; only those with a call have reserved
  have hlist : ∀ (l : List Nat) (s : State), s.canceled = true → ∃ s', Leads b calls s s' ∧
      s'.canceled = true ∧ s'.reserved = s.reserved ∧
      ∀ t, t ∈ l ∨ (s.stage t).holds = false → (s'.stage t).holds = false := by
    intro l
    induction l with
    | nil =>
      intro s hc
      exact ⟨s, .refl s, hc, rfl, fun t ht => ht.resolve_left not_mem_nil⟩
    | cons u l ih =>
      intro s hc
      obtain ⟨s₁, hleads, hc₁, hr₁, hu, hothers⟩ := withdraw_one hc u
      obtain ⟨s₂, hleads₂, hc₂, hr₂, hall⟩ := ih s₁ hc₁
      refine ⟨s₂, hleads.trans hleads₂, hc₂, hr₂.trans hr₁, fun t ht => hall t ?_⟩
      by_cases htu : t = u
      · exact .inr (htu ▸ hu)
      rw [mem_cons] at ht
      rw [hothers t htu]
      exact ht.imp_left fun hmem => hmem.resolve_left htu
  obtain ⟨s', hleads, hc, hr, hall⟩ := hlist s.reserved s hcanceled
  refine ⟨s', hleads, hc, fun t => hall t ?_⟩
  by_cases hholds : (s.stage t).holds = true
  · have htokens := h.placed.tokens t
    rw [hholds] at htokens
    exact .inl (count_pos_iff.mp (by simp only [Bool.toNat_true] at htokens; omega))
  · exact .inr (Bool.eq_false_iff.mpr hholds)

/-! ## The dispatcher stops -/

theorem Quiet.of_eq (h : Quiet s) (hcanceled : s'.canceled = s.canceled)
    (hstage : s'.stage = s.stage) : Quiet s' := by
  rw [Quiet, hcanceled, hstage]
  exact h

variable (b calls) in
theorem clear_todo (hquiet : Quiet s) : ∃ s', Leads b calls s s' ∧ Quiet s' ∧ s'.todo = [] ∧
    s'.phase = s.phase ∧ s'.input = s.input := by
  induction htodo : s.todo generalizing s with
  | nil => exact ⟨s, .refl s, hquiet, htodo, rfl, rfl⟩
  | cons work todo ih =>
    have hstep : State.step b calls s (.dispatcher .work) =
        some ({ s with todo }.work calls work) := by
      rw [State.step, State.dispatch.eq_def, htodo]
    have hsame : ∀ s₁ : State, (s₁.work calls work).canceled = s₁.canceled ∧
        (s₁.work calls work).stage = s₁.stage ∧ (s₁.work calls work).todo = s₁.todo ∧
        (s₁.work calls work).phase = s₁.phase ∧ (s₁.work calls work).input = s₁.input := by
      intro s₁
      cases work <;> exact ⟨rfl, rfl, rfl, rfl, rfl⟩
    obtain ⟨hc, hs, ht, hp, hi⟩ := hsame { s with todo }
    obtain ⟨s', hleads, hquiet', hnil, hphase, hinput⟩ := ih (hquiet.of_eq hc hs) ht
    exact ⟨s', (Leads.step _ hstep).trans hleads, hquiet', hnil, hphase.trans hp, hinput.trans hi⟩

/-- A turn of the dispatcher when nothing is to be done first. -/
theorem Leads.turn (turn : Turn) {phase : Phase} (htodo : s.todo = []) (hphase : s.phase = phase)
    (h : s.advance b calls phase turn = some s') : Leads b calls s s' := by
  refine .step (.dispatcher turn) ?_
  rw [State.step, State.dispatch.eq_def, htodo]
  dsimp only
  rw [hphase, h]

/-- From `phase` the dispatcher gets to `next`, with nothing to be done first. -/
def Moves (b : Batcher) (calls : Nat → BatchCall Request) (phase next : Phase) : Prop :=
  ∀ s : State, Quiet s → s.todo = [] → s.phase = phase →
    ∃ s', Leads b calls s s' ∧ Quiet s' ∧ s'.todo = [] ∧ s'.phase = next

theorem Moves.trans {p₁ p₂ p₃ : Phase} (h₁ : Moves b calls p₁ p₂) (h₂ : Moves b calls p₂ p₃) :
    Moves b calls p₁ p₃ := by
  intro s hquiet htodo hphase
  obtain ⟨s₁, hleads, hquiet₁, htodo₁, hphase₁⟩ := h₁ s hquiet htodo hphase
  obtain ⟨s₂, hleads₂, hrest⟩ := h₂ s₁ hquiet₁ htodo₁ hphase₁
  exact ⟨s₂, hleads.trans hleads₂, hrest⟩

theorem moves_turn (turn : Turn) {phase next : Phase}
    (h : ∀ s : State, Quiet s → s.todo = [] → s.phase = phase → ∃ s',
      s.advance b calls phase turn = some s' ∧ s'.canceled = s.canceled ∧ s'.stage = s.stage ∧
        s'.phase = next) : Moves b calls phase next := by
  intro s hquiet htodo hphase
  obtain ⟨s₁, hturn, hcanceled, hstage, hnext⟩ := h s hquiet htodo hphase
  obtain ⟨s₂, hleads, hquiet₂, htodo₂, hphase₂, -⟩ := clear_todo b calls
    (hquiet.of_eq hcanceled hstage)
  exact ⟨s₂, (Leads.turn _ htodo hphase hturn).trans hleads, hquiet₂, htodo₂, hphase₂.trans hnext⟩

variable (b calls)

theorem moves_waiting : Moves b calls .waiting .top :=
  moves_turn .wake fun _ _ _ _ => ⟨_, rfl, rfl, rfl, rfl⟩

theorem moves_choosing : Moves b calls .choosing .top := by
  intro s hquiet htodo hphase
  cases hchoose : s.choose b calls (fun _ => 0) true with
  | none =>
    have hturn : s.advance b calls .choosing (.choose (fun _ => 0) true) =
        some { s with phase := .waiting } := by
      rw [State.advance, hchoose]
    obtain ⟨s', hleads, hrest⟩ := moves_waiting b calls
      { s with phase := .waiting } hquiet htodo rfl
    exact ⟨s', (Leads.turn _ htodo hphase hturn).trans hleads, hrest⟩
  | some r =>
    obtain ⟨selected, remaining⟩ := r
    obtain ⟨s', hleads, hquiet', htodo', hphase', -⟩ := clear_todo b calls (s := { s with
      phase := .top, todo := State.batchWork selected, pending := remaining }) hquiet
    refine ⟨s', .trans (.turn (.choose (fun _ => 0) true) htodo hphase ?_) hleads, hquiet',
      htodo', hphase'⟩
    rw [State.advance, hchoose]

theorem moves_checking (rest : List Nat) : Moves b calls (.checking rest) .choosing := by
  induction rest with
  | nil => exact moves_turn .check fun _ _ _ _ => ⟨_, rfl, rfl, rfl, rfl⟩
  | cons t rest ih =>
    refine .trans (moves_turn .check fun s _ _ _ => ?_) ih
    cases hdone : s.done t with
    | none =>
      exact ⟨{ s with phase := .checking rest, pending := s.pending ++ [t] },
        by rw [State.advance, hdone], rfl, rfl, rfl⟩
    | some err =>
      exact ⟨{ s with
          phase := .checking rest, todo := [.release t, .complete t err.error] },
        by rw [State.advance, hdone], rfl, rfl, rfl⟩

theorem moves_receiving : Moves b calls .receiving .choosing := by
  intro s hquiet htodo hphase
  induction hinput : s.input generalizing s with
  | nil =>
    obtain ⟨s', hleads, hrest⟩ := moves_checking b calls s.pending
      { s with phase := .checking s.pending, pending := [] } hquiet htodo rfl
    refine ⟨s', .trans (.turn .default htodo hphase ?_) hleads, hrest⟩
    rw [State.advance, if_pos hinput]
  | cons t input ih =>
    obtain ⟨s', hleads, hrest⟩ := ih { s with input, pending := s.pending ++ [t] } hquiet htodo
      hphase rfl
    refine ⟨s', .trans (.turn .receive htodo hphase ?_) hleads, hrest⟩
    rw [State.advance, State.receive, hinput]

theorem moves_top : Moves b calls .top .counting := by
  refine moves_turn .loop fun s hquiet _ _ => ⟨{ s with
    phase := .counting, todo := State.failCalls s.pending, pending := [] }, ?_, rfl, rfl, rfl⟩
  rw [State.advance, if_pos hquiet.1]

variable {b calls}

section

variable (h : Invariant b calls s)

include h

/-- Once the callers are done, what is counted is in the channel. -/
theorem counting_input (hquiet : Quiet s) (htodo : s.todo = []) (hphase : s.phase = .counting)
    (hcalls : 0 < s.queuedCalls) : s.input ≠ [] := by
  intro hinput
  have hpending := (h.closing (by rw [hphase]; rfl)).2
  have hqueued : s.queued = [] := by
    rw [State.queued, hinput, hpending, hphase, htodo]
    rfl
  have hcount : s.reserved.length = s.released.length := by
    have hperm : s.reserved.Perm s.released := by
      refine perm_iff_count.mpr fun t => ?_
      have htokens := h.placed.tokens t
      rw [hquiet.2 t, hqueued] at htokens
      simpa using htokens.symm
    exact hperm.length_eq
  have heq := h.balanced.calls_eq
  omega

variable (b calls) in
omit h in
theorem moves_finishing : Moves b calls .finishing .stopped := by
  intro s hquiet htodo hphase
  induction hrunning : s.running generalizing s with
  | zero =>
    refine ⟨{ s with phase := .stopped }, .turn .finish htodo hphase ?_, hquiet, htodo,
      rfl⟩
    rw [State.advance, if_neg (by omega)]
  | succ n ih =>
    obtain ⟨s', hleads, hrest⟩ := ih { s with running := s.running - 1 } hquiet htodo hphase
      (by show s.running - 1 = n; omega)
    refine ⟨s', .trans (.turn .finish htodo hphase ?_) hleads, hrest⟩
    rw [State.advance, if_pos (by omega)]

omit h in
theorem finishes (hquiet : Quiet s) (htodo : s.todo = []) (hphase : s.phase = .counting)
    (hcalls : ¬s.queuedCalls > 0) : ∃ s', Leads b calls s s' ∧ s'.phase = .stopped := by
  have hcount : s.advance b calls .counting .count = some { s with phase := .finishing } := by
    rw [State.advance, if_neg hcalls]
  obtain ⟨s', hleads, -, -, hstopped⟩ := moves_finishing b calls { s with phase := .finishing }
    hquiet htodo rfl
  exact ⟨s', (Leads.turn _ htodo hphase hcount).trans hleads, hstopped⟩

/-- The channel is emptied call by call, until the queue is seen empty. -/
theorem drains (hquiet : Quiet s) (htodo : s.todo = []) (hphase : s.phase = .counting) :
    ∃ s', Leads b calls s s' ∧ s'.phase = .stopped := by
  induction hinput : s.input generalizing s with
  | nil =>
    exact finishes hquiet htodo hphase fun hcalls =>
      counting_input h hquiet htodo hphase hcalls hinput
  | cons t input ih =>
    by_cases hcalls : s.queuedCalls > 0
    · have hcount : s.advance b calls .counting .count = some { s with phase := .draining } := by
        rw [State.advance, if_pos hcalls]
      have htake : State.advance b calls { s with phase := .draining } .draining .receive =
          some { s with phase := .counting, input, todo := State.failCalls [t] } := by
        rw [State.advance, State.receive, hinput]
      obtain ⟨s₁, hleads, hquiet₁, htodo₁, hphase₁, hinput₁⟩ := clear_todo b calls
        (s := { s with phase := .counting, input, todo := State.failCalls [t] }) hquiet
      have hall : Leads b calls s s₁ :=
        ((Leads.turn _ htodo hphase hcount).trans (.turn _ htodo rfl htake)).trans hleads
      obtain ⟨s', hleads', hstopped⟩ := ih (hall.invariant h) hquiet₁ htodo₁ hphase₁ hinput₁
      exact ⟨s', hall.trans hleads', hstopped⟩
    · exact finishes hquiet htodo hphase hcalls

theorem stops : ∃ s', Leads b calls s s' ∧ s'.phase = .stopped := by
  have hstop : State.step b calls s .stop = some { s with canceled := true } := rfl
  obtain ⟨s₁, hleads₁, hquiet₁⟩ := withdraw_all (h.step hstop) rfl
  obtain ⟨s₂, hleads₂, hquiet₂, htodo₂, -⟩ := clear_todo b calls hquiet₁
  have hleads : Leads b calls s s₂ := ((Leads.step _ hstop).trans hleads₁).trans hleads₂
  have htop : Moves b calls .choosing .counting :=
    (moves_choosing b calls).trans (moves_top b calls)
  -- from any other phase by way of `counting`
  have hcounting : ∀ phase, Moves b calls phase .counting → s₂.phase = phase →
      ∃ s', Leads b calls s s' ∧ s'.phase = .stopped := by
    intro phase hmoves hphase
    obtain ⟨s₃, hleads₃, hquiet₃, htodo₃, hphase₃⟩ := hmoves s₂ hquiet₂ htodo₂ hphase
    have hall := hleads.trans hleads₃
    obtain ⟨s', hleads', hstopped⟩ := drains (hall.invariant h) hquiet₃ htodo₃ hphase₃
    exact ⟨s', hall.trans hleads', hstopped⟩
  cases hphase : s₂.phase with
  | top => exact hcounting _ (moves_top b calls) hphase
  | receiving => exact hcounting _ ((moves_receiving b calls).trans htop) hphase
  | checking rest => exact hcounting _ ((moves_checking b calls rest).trans htop) hphase
  | choosing => exact hcounting _ htop hphase
  | waiting => exact hcounting _ ((moves_waiting b calls).trans (moves_top b calls)) hphase
  | counting =>
    obtain ⟨s', hleads', hstopped⟩ := drains (hleads.invariant h) hquiet₂ htodo₂ hphase
    exact ⟨s', hleads.trans hleads', hstopped⟩
  | draining =>
    refine hcounting _ (moves_turn .wake fun s _ _ _ => ?_) hphase
    exact ⟨{ s with phase := .counting }, rfl, rfl, rfl, rfl⟩
  | finishing =>
    obtain ⟨s', hleads', -, -, hstopped⟩ := moves_finishing b calls s₂ hquiet₂ htodo₂ hphase
    exact ⟨s', hleads.trans hleads', hstopped⟩
  | stopped => exact ⟨s₂, hleads, hphase⟩

/-! ## The queue is accounted for -/

omit h in
theorem Reachable.invariant (h : Reachable b calls s) : Invariant b calls s :=
  Leads.invariant h .new

/-- The calls that were reserved and are not released. -/
def State.outstanding (s : State) : List Nat := s.reserved.filter fun t => t ∉ s.released

theorem outstanding_perm : (s.released ++ s.outstanding).Perm s.reserved := by
  have hreleased : (s.reserved.filter fun t => t ∈ s.released).Perm s.released := by
    refine (perm_ext_iff_of_nodup (h.placed.once.filter _) h.placed.released_nodup).mpr ?_
    intro t
    simp only [mem_filter, decide_eq_true_eq, and_iff_right_iff_imp]
    exact fun hmem => h.placed.released_sub hmem
  have hsplit := filter_append_perm (fun t => decide (t ∈ s.released)) s.reserved
  refine (hreleased.symm.append_right _).trans ?_
  simpa [State.outstanding] using hsplit

theorem outstanding_total (w : Nat → Nat) :
    (s.reserved.map w).sum = (s.released.map w).sum + (s.outstanding.map w).sum := by
  rw [← sum_append_nat, ← map_append]
  exact ((outstanding_perm h).map w).sum_nat.symm

/-- When the dispatcher has stopped, nothing is queued or owed. -/
theorem stopped_empty (hphase : s.phase = .stopped) :
    s.outstanding = [] ∧ s.owed = s.input ∧ s.input = [] := by
  obtain ⟨hcalls, htodo⟩ := h.ended (by rw [hphase]; rfl)
  have hpending := (h.closing (by rw [hphase]; rfl)).2
  have hlength := (outstanding_perm h).length_eq
  rw [length_append] at hlength
  have heq := h.balanced.calls_eq
  have hnone : s.outstanding = [] := eq_nil_of_length_eq_zero (by omega)
  refine ⟨hnone, ?_, eq_nil_iff_forall_not_mem.mpr fun t ht => ?_⟩
  · rw [State.owed, hpending, hphase, htodo]
    exact append_nil _
  · obtain ⟨hreserved, hreleased⟩ := h.placed.queued_outstanding (mem_append_left _ ht)
    have hmem : t ∈ s.outstanding := mem_filter.mpr ⟨hreserved, decide_eq_true hreleased⟩
    rw [hnone] at hmem
    cases hmem

end

/-- The counters of a batcher's queue, in any state that it gets to: they are
the totals of the calls that were reserved and not released, within the limits.
No call is released twice, or without being reserved. From every state the
batcher can stop; once it has, all counters are zero, every reserved call has
been released once, and every call that was sent has been taken from the channel
and completed, or executed. -/
theorem queue_accounted (h : Reachable b calls s) :
    s.queuedCalls = s.outstanding.length ∧
    s.queuedOperations = operationTotal calls s.outstanding ∧
    s.queuedBytes = byteTotal calls s.outstanding ∧
    s.queuedOperations ≤ b.maxQueuedOperations ∧ s.queuedBytes ≤ b.maxQueuedBytes ∧
    s.released.Nodup ∧ s.released ⊆ s.reserved ∧
    (∃ s', Leads b calls s s' ∧ s'.phase = .stopped) ∧
    (s.phase = .stopped → s.queuedCalls = 0 ∧ s.queuedOperations = 0 ∧ s.queuedBytes = 0 ∧
      s.input = [] ∧ (∀ t ∈ s.reserved, s.released.count t = 1) ∧
      ∀ t ∈ s.accepted, t ∈ s.completed ∨ t ∈ s.executed) := by
  have hinv := h.invariant
  have hcalls : s.queuedCalls = s.outstanding.length := by
    have hlength := (outstanding_perm hinv).length_eq
    rw [length_append] at hlength
    have heq := hinv.balanced.calls_eq
    omega
  have hoperations : s.queuedOperations = operationTotal calls s.outstanding := by
    have htotal := outstanding_total hinv fun t => (calls t).operationCount
    have heq := hinv.balanced.operations_eq
    simp only [operationTotal] at heq ⊢
    omega
  have hbytes : s.queuedBytes = byteTotal calls s.outstanding := by
    have htotal := outstanding_total hinv fun t => (calls t).encodedBytes
    have heq := hinv.balanced.bytes_eq
    simp only [byteTotal] at heq ⊢
    omega
  refine ⟨hcalls, hoperations, hbytes, hinv.balanced.operations_le, hinv.balanced.bytes_le,
    hinv.placed.released_nodup, hinv.placed.released_sub, stops hinv, fun hphase => ?_⟩
  obtain ⟨hnone, howed, hinput⟩ := stopped_empty hinv hphase
  rw [hnone] at hcalls hoperations hbytes
  refine ⟨hcalls, hoperations, hbytes, hinput, fun t ht => ?_, fun t ht => ?_⟩
  · have hmem : t ∈ s.released := by
      by_contra hreleased
      have hout : t ∈ s.outstanding := mem_filter.mpr ⟨ht, decide_eq_true hreleased⟩
      rw [hnone] at hout
      cases hout
    exact count_eq_one_of_mem hinv.placed.released_nodup hmem
  · rcases hinv.settled t ht with hqueued | hdone
    · rw [howed, hinput] at hqueued
      cases hqueued
    · exact hdone

def twoPlaces : Batcher where
  maxOperations := 2
  maxBytes := 100
  maxConcurrent := 1
  maxQueuedOperations := 2
  maxQueuedBytes := 100

def smallCall (t : Nat) : BatchCall Nat := ⟨t, 1, 40, [], ⟨[], .waitUntilApplied, false⟩⟩

/-- Two callers reserve. One has sent its call when the batcher stops; the other
one withdraws while the dispatcher waits for it. -/
def race : List Action :=
  [.caller 0 .submit, .caller 0 .reserve, .caller 0 .look, .caller 0 .send,
    .caller 1 .submit, .caller 1 .reserve, .caller 1 .look, .stop, .caller 1 .refuse,
    .dispatcher .loop, .dispatcher .count, .dispatcher .receive, .dispatcher .work,
    .dispatcher .work, .dispatcher .count, .dispatcher .wake, .caller 1 .withdraw,
    .dispatcher .count, .dispatcher .finish]

def raced : State := (Machine.run (State.step twoPlaces smallCall) .new race).getD .new

theorem queue_accounted_race :
    Reachable twoPlaces smallCall raced ∧ raced.phase = .stopped ∧ raced.reserved = [1, 0] ∧
      raced.queuedCalls = 0 ∧ raced.input = [] ∧
      (∀ t ∈ raced.reserved, raced.released.count t = 1) ∧
      ∀ t ∈ raced.accepted, t ∈ raced.completed ∨ t ∈ raced.executed := by
  have hreach : Reachable twoPlaces smallCall raced := ⟨race, rfl⟩
  have hphase : raced.phase = .stopped := rfl
  obtain ⟨-, -, -, -, -, -, -, -, hstopped⟩ := queue_accounted hreach
  obtain ⟨hcalls, -, -, hinput, hreleased, haccepted⟩ := hstopped hphase
  exact ⟨hreach, hphase, rfl, hcalls, hinput, hreleased, haccepted⟩

end Sink.Queue
