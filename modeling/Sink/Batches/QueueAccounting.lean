import Mathlib.Data.List.Nodup
import Sink.Batches.Queue

/-!
# Queue accounting

A call that was reserved is in one place until it is released: its caller has
it, it is in the channel, or the dispatcher has it (`Placed.tokens`). Only
who has a call releases it, so it is released once. The counters follow from
that, and so does the end: the dispatcher stops when `queuedCalls` is zero, and
by then nobody can reserve any more.
-/

namespace Sink.Queue

open Function List

/-! ## Places -/

/-- The caller has reserved, and has to send or to release its call. -/
def Stage.holds : Stage → Bool
  | .reserved | .sending | .withdrawing _ => true
  | _ => false

/-- The caller has not tried to reserve. -/
def Stage.early : Stage → Bool
  | .ahead | .reserving => true
  | _ => false

def Work.releases : Work → List Nat
  | .release t => [t]
  | _ => []

/-- The calls that are completed, or handed to an execution. -/
def Work.settles : Work → List Nat
  | .complete t _ => [t]
  | .start batch => batch
  | .release _ => []

namespace Phase

/-- The calls that the loop has not come to. -/
def rest : Phase → List Nat
  | .checking rest => rest
  | _ => []

/-- The dispatcher has seen that its context is done. -/
def closing : Phase → Bool
  | .counting | .draining | .finishing | .stopped => true
  | _ => false

/-- It has seen that the queue is empty. -/
def ended : Phase → Bool
  | .finishing | .stopped => true
  | _ => false

theorem closing_of_ended {phase : Phase} (h : phase.ended = true) : phase.closing = true := by
  cases phase <;> first | rfl | cases h

end Phase

namespace State

variable (s : State)

/-- The calls in the channel, and those that the dispatcher has to release. -/
def queued : List Nat :=
  s.input ++ (s.pending ++ (s.phase.rest ++ s.todo.flatMap Work.releases))

/-- The calls in the channel, and those that the dispatcher has to settle. -/
def owed : List Nat :=
  s.input ++ (s.pending ++ (s.phase.rest ++ s.todo.flatMap Work.settles))

end State

variable (batch : List Nat)

theorem failCalls_releases : (State.failCalls batch).flatMap Work.releases = batch := by
  induction batch with
  | nil => rfl
  | cons t batch ih => exact congrArg (cons t) ih

theorem failCalls_settles : (State.failCalls batch).flatMap Work.settles = batch := by
  induction batch with
  | nil => rfl
  | cons t batch ih => exact congrArg (cons t) ih

theorem batchWork_releases : (State.batchWork batch).flatMap Work.releases = batch := by
  have hmap : ∀ l : List Nat, (l.map Work.release).flatMap Work.releases = l := by
    intro l
    induction l with
    | nil => rfl
    | cons t l ih => exact congrArg (cons t) ih
  rw [State.batchWork, flatMap_append, hmap]
  exact append_nil batch

theorem batchWork_settles : (State.batchWork batch).flatMap Work.settles = batch := by
  have hmap : ∀ l : List Nat, (l.map Work.release).flatMap Work.settles = [] := by
    intro l
    induction l with
    | nil => rfl
    | cons t l ih => exact ih
  rw [State.batchWork, flatMap_append, hmap]
  exact append_nil batch

section

variable {Request : Type} {b : Batcher} {calls : Nat → BatchCall Request} {s s' : State}

theorem choose_perm {active waited selected remaining}
    (h : s.choose b calls active waited = some (selected, remaining)) :
    (selected ++ remaining).Perm s.pending := by
  unfold State.choose at h
  split at h
  · obtain ⟨m, hcalls, hselected, hremaining, -⟩ :=
      selectReady_closed b.toRequestBatcher active (s.pending.map (State.numbered calls))
    split at h
    rename_i chosen others reason heq
    rw [heq] at hselected hremaining
    dsimp only at hselected hremaining
    split at h
    · cases h
      have hpending : m.calls.map (·.request) = s.pending := by
        rw [hcalls, map_map]
        exact map_id _
      rw [hselected, hremaining, ← hpending, ← map_append]
      refine Perm.map _ ?_
      unfold Marking.selected Marking.remaining Marking.calls
      rw [← map_append]
      exact (filter_append_perm _ m).map _
    · cases h
  · cases h

end

/-! ## Who has a call -/

/-- A reserved call is with its caller, queued, or released. -/
structure Placed (stage : Nat → Stage) (queued reserved released : List Nat) : Prop where
  tokens : ∀ t, (stage t).holds.toNat + queued.count t + released.count t = reserved.count t
  once : reserved.Nodup
  early : ∀ t, (stage t).early = true → t ∉ reserved

namespace Placed

variable {stage : Nat → Stage} {queued reserved released : List Nat} {t : Nat} {next : Stage}

section

variable (h : Placed stage queued reserved released)

include h

theorem perm {queued' : List Nat} (hperm : queued'.Perm queued) :
    Placed stage queued' reserved released where
  tokens := fun u => by rw [hperm.count_eq]; exact h.tokens u
  once := h.once
  early := h.early

theorem count_le (u : Nat) : (stage u).holds.toNat + queued.count u + released.count u ≤ 1 := by
  rw [h.tokens]
  exact nodup_iff_count_le_one.mp h.once u

/-- The caller goes on, and has the call if it had it before. -/
theorem move (hholds : next.holds = (stage t).holds)
    (hearly : next.early = true → (stage t).early = true) :
    Placed (update stage t next) queued reserved released where
  tokens := by
    intro u
    have htokens := h.tokens u
    by_cases hu : u = t
    · subst hu
      rwa [update_self, hholds]
    · rwa [update_of_ne hu]
  once := h.once
  early := by
    intro u hnext
    by_cases hu : u = t
    · subst hu
      rw [update_self] at hnext
      exact h.early u (hearly hnext)
    · rw [update_of_ne hu] at hnext
      exact h.early u hnext

theorem reserve (hearly : (stage t).early = true) (hnext : next.holds = true)
    (hlate : next.early = false) :
    Placed (update stage t next) queued (t :: reserved) released := by
  have hfresh := h.early t hearly
  have hnone : (stage t).holds = false := by
    cases hstage : stage t <;> rw [hstage] at hearly <;> first | rfl | cases hearly
  refine ⟨fun u => ?_, nodup_cons.mpr ⟨hfresh, h.once⟩, fun u hu => ?_⟩
  · have htokens := h.tokens u
    by_cases hu : u = t
    · subst hu
      rw [hnone] at htokens
      rw [update_self, hnext, count_cons_self, ← htokens]
      simp only [Bool.toNat_true, Bool.toNat_false]
      omega
    · rw [update_of_ne hu, count_cons_of_ne (Ne.symm hu)]
      exact htokens
  · by_cases heq : u = t
    · subst heq
      rw [update_self, hlate] at hu
      cases hu
    · rw [update_of_ne heq] at hu
      exact not_mem_cons_of_ne_of_not_mem heq (h.early u hu)

theorem part (hholds : (stage t).holds = true) (hnext : next.holds = false)
    (hlate : next.early = false) {queued' released' : List Nat}
    (hcount : (queued' ++ released').Perm (t :: (queued ++ released))) :
    Placed (update stage t next) queued' reserved released' := by
  refine ⟨fun u => ?_, h.once, fun u hu => ?_⟩
  · have htokens := h.tokens u
    have hsum := hcount.count_eq u
    rw [count_append, count_cons, count_append] at hsum
    by_cases hu : u = t
    · subst hu
      rw [hholds] at htokens
      rw [update_self, hnext, ← htokens]
      simp only [Bool.toNat_true, Bool.toNat_false, beq_self_eq_true, if_true] at hsum ⊢
      omega
    · rw [update_of_ne hu, ← htokens]
      rw [if_neg (by simpa using Ne.symm hu)] at hsum
      omega
  · by_cases heq : u = t
    · subst heq
      rw [update_self, hlate] at hu
      cases hu
    · rw [update_of_ne heq] at hu
      exact h.early u hu

end

theorem release (h : Placed stage (t :: queued) reserved released) :
    Placed stage queued reserved (t :: released) where
  tokens := by
    intro u
    have htokens := h.tokens u
    rw [count_cons] at htokens ⊢
    omega
  once := h.once
  early := h.early

section

variable (h : Placed stage queued reserved released)

include h

theorem released_nodup : released.Nodup := by
  refine nodup_iff_count_le_one.mpr fun u => ?_
  have hle := h.count_le u
  omega

theorem released_sub : released ⊆ reserved := by
  intro u hu
  have htokens := h.tokens u
  have hpos := count_pos_iff.mpr hu
  exact count_pos_iff.mp (by omega)

theorem queued_outstanding {u : Nat} (hu : u ∈ queued) : u ∈ reserved ∧ u ∉ released := by
  have htokens := h.tokens u
  have hle := h.count_le u
  have hpos := count_pos_iff.mpr hu
  exact ⟨count_pos_iff.mp (by omega), count_eq_zero.mp (by omega)⟩

end

end Placed

/-! ## Counters -/

section

variable {Request : Type} (b : Batcher) (calls : Nat → BatchCall Request)

def operationTotal (l : List Nat) : Nat := (l.map fun t => (calls t).operationCount).sum

def byteTotal (l : List Nat) : Nat := (l.map fun t => (calls t).encodedBytes).sum

/-- The counters after some calls were reserved and some released. -/
structure Balanced (queuedCalls queuedOperations queuedBytes : Int)
    (reserved released : List Nat) : Prop where
  calls_eq : queuedCalls = reserved.length - released.length
  operations_eq : queuedOperations = operationTotal calls reserved - operationTotal calls released
  bytes_eq : queuedBytes = byteTotal calls reserved - byteTotal calls released
  operations_le : queuedOperations ≤ b.maxQueuedOperations
  bytes_le : queuedBytes ≤ b.maxQueuedBytes

variable {b calls}

theorem Balanced.release {c o n : Int} {reserved released : List Nat}
    (h : Balanced b calls c o n reserved released) (t : Nat) :
    Balanced b calls (c - 1) (o - (calls t).operationCount) (n - (calls t).encodedBytes)
      reserved (t :: released) := by
  obtain ⟨hcalls, hoperations, hbytes, hmaxOperations, hmaxBytes⟩ := h
  have hops : operationTotal calls (t :: released) =
      (calls t).operationCount + operationTotal calls released := sum_cons
  have hsize : byteTotal calls (t :: released) =
      (calls t).encodedBytes + byteTotal calls released := sum_cons
  refine ⟨?_, ?_, ?_, ?_, ?_⟩
  · rw [length_cons]
    omega
  · omega
  · omega
  · omega
  · omega

theorem Balanced.reserve {s : State} {t : Nat} (hroom : s.full b calls t = false)
    (h : Balanced b calls s.queuedCalls s.queuedOperations s.queuedBytes s.reserved s.released) :
    Balanced b calls (s.queuedCalls + 1) (s.queuedOperations + (calls t).operationCount)
      (s.queuedBytes + (calls t).encodedBytes) (t :: s.reserved) s.released := by
  obtain ⟨hcalls, hoperations, hbytes, -, -⟩ := h
  simp only [State.full, Bool.or_eq_false_iff, decide_eq_false_iff_not] at hroom
  have hops : operationTotal calls (t :: s.reserved) =
      (calls t).operationCount + operationTotal calls s.reserved := sum_cons
  have hsize : byteTotal calls (t :: s.reserved) =
      (calls t).encodedBytes + byteTotal calls s.reserved := sum_cons
  refine ⟨?_, ?_, ?_, ?_, ?_⟩
  · rw [length_cons]
    omega
  · omega
  · omega
  · omega
  · omega

end

/-! ## Steps -/

section

variable {Request : Type}

/-- What holds of every state that is reached. -/
structure Invariant (b : Batcher) (calls : Nat → BatchCall Request) (s : State) : Prop where
  placed : Placed s.stage s.queued s.reserved s.released
  balanced : Balanced b calls s.queuedCalls s.queuedOperations s.queuedBytes s.reserved s.released
  settled : ∀ t ∈ s.accepted, t ∈ s.owed ∨ t ∈ s.completed ∨ t ∈ s.executed
  closing : s.phase.closing = true → s.canceled = true ∧ s.pending = []
  ended : s.phase.ended = true → s.queuedCalls ≤ 0 ∧ s.todo = []

variable {b : Batcher} {calls : Nat → BatchCall Request} {s s' : State}

namespace Invariant

theorem new : Invariant b calls .new where
  placed := ⟨fun _ => rfl, nodup_nil, fun _ _ => not_mem_nil⟩
  balanced := ⟨rfl, rfl, rfl, Int.natCast_nonneg _, Int.natCast_nonneg _⟩
  settled := nofun
  closing := fun h => nomatch h
  ended := fun h => nomatch h

section

variable (h : Invariant b calls s)

include h

variable {t : Nat}

/-- A caller that goes on, and has its call if it had it before. -/
theorem setStage {next : Stage} (hholds : next.holds = (s.stage t).holds)
    (hearly : next.early = true → (s.stage t).early = true) :
    Invariant b calls (s.setStage t next) where
  placed := h.placed.move hholds hearly
  balanced := h.balanced
  settled := h.settled
  closing := h.closing
  ended := h.ended

theorem reserve (hstage : s.stage t = .reserving) : Invariant b calls (s.reserve b calls t) := by
  unfold State.reserve
  split
  · exact h.setStage (by rw [hstage]; rfl) fun hearly => by cases hearly
  split
  · exact h.setStage (by rw [hstage]; rfl) fun hearly => by cases hearly
  rename_i hcanceled hfull
  refine ⟨?_, h.balanced.reserve (Bool.eq_false_iff.mpr hfull), h.settled, h.closing, ?_⟩
  · exact h.placed.reserve (by rw [hstage]; rfl) rfl rfl
  · -- nobody reserves once the dispatcher has seen that its context is done
    intro hended
    exact absurd (h.closing (Phase.closing_of_ended hended)).1 hcanceled

theorem send (hstage : s.stage t = .sending) :
    Invariant b calls { s.setStage t .accepted with
      input := s.input ++ [t], accepted := t :: s.accepted } := by
  refine ⟨?_, h.balanced, ?_, h.closing, h.ended⟩
  · refine h.placed.part (by rw [hstage]; rfl) rfl rfl ?_
    have hperm : ∀ held : List Nat,
        (s.input ++ [t] ++ held ++ s.released).Perm (t :: (s.input ++ held ++ s.released)) := by
      intro held
      simp only [append_assoc, singleton_append]
      exact perm_middle
    exact hperm _
  · intro u hu
    show u ∈ (s.input ++ [t]) ++ _ ∨ _
    rcases mem_cons.mp hu with rfl | hu
    · exact .inl (by simp)
    rcases h.settled u hu with howed | hdone
    · left
      rw [State.owed, mem_append] at howed
      rw [mem_append, mem_append]
      exact howed.imp_left .inl
    · exact .inr hdone

theorem withdraw {err : GoError} (hstage : s.stage t = .withdrawing err) :
    Invariant b calls ((s.release calls t).setStage t (.returned (some err))) := by
  refine ⟨?_, h.balanced.release t, h.settled, h.closing, ?_⟩
  · exact h.placed.part (by rw [hstage]; rfl) rfl rfl perm_middle
  · intro hended
    obtain ⟨hcalls, htodo⟩ := h.ended hended
    exact ⟨Int.le_trans (Int.sub_le_self _ (by decide)) hcalls, htodo⟩

theorem submit {move : Move} (hstep : s.submit b calls t (s.stage t) move = some s') :
    Invariant b calls s' := by
  unfold State.submit at hstep
  split at hstep
  all_goals try rename_i hstage
  -- most moves leave the call where it is
  · split at hstep <;> cases hstep
    · exact h.setStage (by rw [hstage]; rfl) nofun
    · exact h.setStage (by rw [hstage]; rfl) fun _ => by rw [hstage]; rfl
  · cases hstep
    exact h.reserve hstage
  · cases hstep
    refine h.setStage ?_ fun hearly => ?_
    · rw [hstage]
      split <;> rfl
    · split at hearly <;> cases hearly
  · split at hstep <;> cases hstep
    exact h.send hstage
  · obtain ⟨err, -, rfl⟩ := Option.map_eq_some_iff.mp hstep
    exact h.setStage (by rw [hstage]; rfl) nofun
  · split at hstep <;> cases hstep
    exact h.setStage (by rw [hstage]; rfl) nofun
  · cases hstep
    exact h.withdraw hstage
  · split at hstep <;> cases hstep
    exact h.setStage (by rw [hstage]; rfl) nofun
  · obtain ⟨err, -, rfl⟩ := Option.map_eq_some_iff.mp hstep
    exact h.setStage (by rw [hstage]; rfl) nofun
  · split at hstep <;> cases hstep
    exact h.setStage (by rw [hstage]; rfl) nofun
  · cases hstep

/-! ## The dispatcher -/

/-- A step of `todo`. There are none once the queue was seen empty. -/
theorem work {work : Work} {todo : List Work} (htodo : s.todo = work :: todo) :
    Invariant b calls ({ s with todo }.work calls work) := by
  have hopen : s.phase.ended = true → False := by
    intro hended
    have hnil := (h.ended hended).2
    rw [htodo] at hnil
    cases hnil
  have hqueued : s.queued = s.input ++ (s.pending ++ (s.phase.rest ++
      (work.releases ++ todo.flatMap Work.releases))) := by
    rw [State.queued, htodo, flatMap_cons]
  have howed : s.owed = s.input ++ (s.pending ++ (s.phase.rest ++
      (work.settles ++ todo.flatMap Work.settles))) := by
    rw [State.owed, htodo, flatMap_cons]
  -- what is settled now was owed, and the rest still is
  have hsettled : ∀ t ∈ s.accepted, t ∈ work.settles ∨
      t ∈ State.owed { s with todo } ∨ t ∈ s.completed ∨ t ∈ s.executed := by
    intro t ht
    rcases h.settled t ht with hmem | hdone
    · rw [howed] at hmem
      simp only [State.owed, mem_append] at hmem ⊢
      tauto
    · exact .inr (.inr hdone)
  have hplaced := h.placed
  rw [hqueued] at hplaced
  cases work with
  | release t =>
    refine ⟨?_, h.balanced.release t, fun u hu => ?_, h.closing, fun hended => ?_⟩
    · have hperm : ∀ front back : List Nat, (t :: (front ++ back)).Perm (front ++ ([t] ++ back)) :=
        fun front back => perm_middle.symm
      have hmoved := hperm (s.input ++ (s.pending ++ s.phase.rest)) (todo.flatMap Work.releases)
      simp only [append_assoc] at hmoved
      exact (hplaced.perm hmoved).release
    · rcases hsettled u hu with hnone | hrest
      · cases hnone
      · exact hrest
    · exact (hopen hended).elim
  | complete t err =>
    refine ⟨hplaced, h.balanced, fun u hu => ?_, h.closing, fun hended => ?_⟩
    · rcases hsettled u hu with hnow | howed | hcompleted | hexecuted
      · exact .inr (.inl (mem_cons.mpr (.inl (mem_singleton.mp hnow))))
      · exact .inl howed
      · exact .inr (.inl (mem_cons_of_mem _ hcompleted))
      · exact .inr (.inr hexecuted)
    · exact (hopen hended).elim
  | start batch =>
    refine ⟨hplaced, h.balanced, fun u hu => ?_, h.closing, fun hended => ?_⟩
    · rcases hsettled u hu with hnow | howed | hcompleted | hexecuted
      · exact .inr (.inr (mem_append_left _ hnow))
      · exact .inl howed
      · exact .inr (.inl hcompleted)
      · exact .inr (.inr (mem_append_right _ hexecuted))
    · exact (hopen hended).elim

/-- The dispatcher moves calls among its lists, and releases nothing. -/
theorem turn {input pending phase todo running}
    (hqueued : (input ++ (pending ++ (phase.rest ++ todo.flatMap Work.releases))).Perm s.queued)
    (howed : (input ++ (pending ++ (phase.rest ++ todo.flatMap Work.settles))).Perm s.owed)
    (hclosing : phase.closing = true → s.canceled = true ∧ pending = [])
    (hended : phase.ended = true → s.queuedCalls ≤ 0 ∧ todo = []) :
    Invariant b calls { s with input, pending, phase, todo, running } where
  placed := h.placed.perm hqueued
  balanced := h.balanced
  settled := fun t ht => (h.settled t ht).imp_left fun hmem => howed.symm.subset hmem
  closing := hclosing
  ended := hended

variable (htodo : s.todo = [])

include htodo

/-- Calls change hands; those in `todo` are released and settled there. -/
theorem reassign {input pending batch phase todo running}
    (hbatch : todo.flatMap Work.releases = batch ∧ todo.flatMap Work.settles = batch)
    (hclosing : phase.closing = true → s.canceled = true ∧ pending = [])
    (hended : phase.ended = true → s.queuedCalls ≤ 0 ∧ todo = [])
    (hperm : (input ++ (pending ++ (phase.rest ++ batch))).Perm
      (s.input ++ (s.pending ++ s.phase.rest))) :
    Invariant b calls { s with input, pending, phase, todo, running } := by
  refine h.turn ?_ ?_ hclosing hended
  · rw [hbatch.1, State.queued, htodo, flatMap_nil, append_nil]
    exact hperm
  · rw [hbatch.2, State.owed, htodo, flatMap_nil, append_nil]
    exact hperm

theorem reassign_open {input pending batch phase todo running}
    (hbatch : todo.flatMap Work.releases = batch ∧ todo.flatMap Work.settles = batch)
    (hphase : phase.closing = false)
    (hperm : (input ++ (pending ++ (phase.rest ++ batch))).Perm
      (s.input ++ (s.pending ++ s.phase.rest))) :
    Invariant b calls { s with input, pending, phase, todo, running } := by
  have hnot : phase.closing ≠ true := by simp [hphase]
  exact h.reassign htodo hbatch (fun hc => absurd hc hnot)
    (fun he => absurd (Phase.closing_of_ended he) hnot) hperm

end

theorem receive_some {k : Nat → State → State} (h : s.receive k = some s') :
    ∃ t input, s.input = t :: input ∧ s' = k t { s with input } := by
  unfold State.receive at h
  split at h
  · rename_i t input hinput
    exact ⟨t, input, hinput, (Option.some.inj h).symm⟩
  · cases h

theorem take_perm (input pending : List Nat) (t : Nat) :
    (input ++ (pending ++ [t])).Perm (t :: input ++ pending) := by
  rw [← append_assoc]
  exact perm_append_singleton t (input ++ pending)

theorem advance (h : Invariant b calls s) (htodo : s.todo = []) {turn : Turn}
    (hstep : s.advance b calls s.phase turn = some s') : Invariant b calls s' := by
  have hnone : s.todo.flatMap Work.releases = [] ∧ s.todo.flatMap Work.settles = [] := by
    rw [htodo]
    exact ⟨rfl, rfl⟩
  unfold State.advance at hstep
  split at hstep
  all_goals try rename_i hphase
  · split at hstep
    · rename_i hcanceled
      cases hstep
      exact h.reassign htodo ⟨failCalls_releases _, failCalls_settles _⟩
        (fun _ => ⟨hcanceled, rfl⟩) (fun he => by cases he) (by simp [hphase, Phase.rest])
    · cases hstep
      exact h.reassign_open htodo hnone rfl (by simp [hphase, Phase.rest])
  · obtain ⟨t, input, hinput, rfl⟩ := receive_some hstep
    refine h.reassign_open htodo hnone (by rw [hphase]; rfl) ?_
    rw [hinput, hphase]
    simpa [Phase.rest] using take_perm input s.pending t
  · split at hstep
    · cases hstep
      exact h.reassign_open htodo hnone rfl (by simp [hphase, Phase.rest])
    · cases hstep
  · cases hstep
    exact h.reassign_open htodo hnone rfl (by simp [hphase, Phase.rest])
  · rename_i t rest
    split at hstep
    · cases hstep
      refine h.reassign_open htodo (⟨rfl, rfl⟩ : _ = [t] ∧ _ = [t]) rfl ?_
      rw [hphase]
      exact ((perm_append_singleton t rest).append_left _).append_left _
    · cases hstep
      exact h.reassign_open htodo hnone rfl (by simp [hphase, Phase.rest])
  · split at hstep
    · rename_i selected remaining hchoose
      cases hstep
      refine h.reassign_open htodo ⟨batchWork_releases _, batchWork_settles _⟩ rfl ?_
      have hbatch : (remaining ++ selected).Perm s.pending :=
        perm_append_comm.trans (choose_perm hchoose)
      simpa [hphase, Phase.rest] using hbatch.append_left s.input
    · cases hstep
      exact h.reassign_open htodo hnone rfl (by simp [hphase, Phase.rest])
  · obtain ⟨t, input, hinput, rfl⟩ := receive_some hstep
    refine h.reassign_open htodo hnone rfl ?_
    rw [hinput, hphase]
    simpa [Phase.rest] using take_perm input s.pending t
  · split at hstep
    · cases hstep
      exact h.reassign_open htodo hnone rfl (by simp [hphase, Phase.rest])
    · cases hstep
  · cases hstep
    exact h.reassign_open htodo hnone rfl (by simp [hphase, Phase.rest])
  · -- the queue is seen empty, or it is not
    cases hstep
    refine h.reassign htodo hnone (fun _ => h.closing (by rw [hphase]; rfl)) (fun he => ?_) ?_
    · split at he
      · cases he
      · rename_i hzero
        exact ⟨Int.not_lt.mp hzero, htodo⟩
    · split <;> simp [hphase, Phase.rest]
  · obtain ⟨t, input, hinput, rfl⟩ := receive_some hstep
    refine h.reassign htodo ⟨failCalls_releases _, failCalls_settles _⟩
      (fun _ => h.closing (by rw [hphase]; rfl)) (fun he => by cases he) ?_
    rw [hinput, hphase]
    simpa [Phase.rest] using take_perm input s.pending t
  · cases hstep
    exact h.reassign htodo hnone (fun _ => h.closing (by rw [hphase]; rfl))
      (fun he => by cases he) (by simp [hphase, Phase.rest])
  · have hended := h.ended (by rw [hphase]; rfl)
    have hclosing := h.closing (by rw [hphase]; rfl)
    cases hstep
    split <;> exact h.reassign htodo hnone (fun _ => hclosing) (fun _ => hended)
      (by simp [hphase, Phase.rest])
  · cases hstep

theorem step (h : Invariant b calls s) {action : Action}
    (hstep : State.step b calls s action = some s') : Invariant b calls s' := by
  cases action with
  | caller t move => exact h.submit hstep
  | dispatcher turn =>
    unfold State.step State.dispatch at hstep
    dsimp only at hstep
    split at hstep
    · rename_i htodo
      cases hstep
      exact h.work htodo
    · rename_i htodo
      exact h.advance htodo hstep
    · cases hstep
  | cancel t err =>
    unfold State.step at hstep
    dsimp only at hstep
    split at hstep
    · cases hstep
      exact ⟨h.placed, h.balanced, h.settled, h.closing, h.ended⟩
    · cases hstep
  | stop =>
    cases hstep
    exact ⟨h.placed, h.balanced, h.settled, fun hc => ⟨rfl, (h.closing hc).2⟩, h.ended⟩

end Invariant

end

end Sink.Queue
