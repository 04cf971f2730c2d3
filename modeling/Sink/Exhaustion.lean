import Sink.ChainWaves
import Sink.MemoryWorld
import Sink.Server

/-!
# Capacity failures of an execution

An execution gives capacity back while the storage works and takes it again
before the next chunk, so a resize can be refused in the middle. A refusal
before a chunk becomes the result of the operations that are left, and so
does a refused lease. The one resize whose error ends the execution is that
of the last commit of a chunk, and it only shrinks: the chunk began with the
whole estimate. Hence no error of `executeWriteGroups` has the code
`ResourceExhausted`, whatever storage and pools answer.

A request that does fail with that code was refused before it was executed,
so its sender may split it and send the parts again.
-/

namespace Sink

open Interact Interact.Exec

variable {α β : Type}

/-- Whatever is answered, `y` ends in `P` or with an error other than an
exhausted capacity. -/
def Survives (y : ServerM α) (P : α → ExecState → Prop) (s : ExecState) : Prop :=
  wp (blind Call Reply) (fun r s' _ => Ends (fun a => P a s') NotExhausted r) y s ()

namespace Survives

variable {y : ServerM α} {P : α → ExecState → Prop} {s : ExecState} {Q : β → ExecState → Prop}
  {f : WriteAttempt → WriteAttempt}

theorem mono {P' : α → ExecState → Prop} (hy : Survives y P s) (h : ∀ a s', P a s' → P' a s') :
    Survives y P' s :=
  wp_mono (fun _ s' _ hr => hr.mono (fun a => h a s') fun _ he => he) hy

theorem bind {f : α → ServerM β} (hy : Survives y P s) (hf : ∀ a s', P a s' → Survives (f a) Q s') :
    Survives (y >>= f) Q s :=
  wp_seq hy (fun a s' _ ha => hf a s' ha) fun _ _ _ he => he

theorem pure {a : α} (h : P a s) :
    Survives (Pure.pure a) P s := h

theorem bind_get {f : ExecState → ServerM β} (h : Survives (f s) Q s) :
    Survives (Exec.get >>= f) Q s := by
  exact h

theorem bind_setAttempt {k : Unit → ServerM β}
    (h : Survives (k ()) Q { s with attempt := f s.attempt }) :
    Survives (setAttempt f >>= k) Q s := by
  exact h

theorem fail {e : GoError} (h : NotExhausted e) :
    Survives (Exec.fail e) P s := h

variable {gs : List WriteGroup}

theorem of_holds {P : α → Prop} (hy : Holds (blind Call Reply) gs y P) (s : ExecState) :
    Survives y (fun a s' => P a ∧ Held gs s s') s :=
  wp_mono (fun _ _ _ h => h.2.2.mono (fun _ ha => ⟨ha, h.2.1⟩) fun _ he => he) (hy s ())

/-- The attempt changed beside its commit mode. -/
theorem setAttempt (gs : List WriteGroup) (hf : (f s.attempt).finalCommit = s.attempt.finalCommit) :
    Survives (Sink.setAttempt f) (fun _ => Held gs s) s :=
  ⟨.of_results rfl, rfl, hf⟩

theorem and_frames {Q : α → Prop} (hy : Survives y P s)
    (hframes : Frames (blind Call Reply) gs y Q) : Survives y (fun a s' => Q a ∧ P a s') s := by
  refine wp_mono ?_ (wp_and hy (hframes s ()))
  rintro (e | a) s' _ ⟨hr, -, -, hq⟩
  · exact hr
  · exact ⟨hq, hr⟩

end Survives

theorem AdmissionReservation.resize_shrink_error {r : AdmissionReservation} {pool : AdmissionPool}
    {bytes : Int} (hle : bytes ≤ r.bytes) {e : GoError} (h : (r.resize pool bytes).1 = some e) :
    NotExhausted e := by
  unfold AdmissionReservation.resize at h
  split at h
  · cases h
    simp [NotExhausted, GoError.statusCode]
  have hgrow : ¬ (bytes - r.bytes > 0 ∧ growthRefused pool (bytes - r.bytes) = true) := by
    intro hg
    omega
  dsimp only at h
  split at h <;> cases h

namespace WriteExecution

variable {x : WriteExecution} {gs : List WriteGroup}
variable {s : ExecState}

/-- The reservation is what the request was admitted with; a lease is not
counted here. -/
def Full (x : WriteExecution) (s : ExecState) : Prop :=
  x.managed = false → s.reservation.bytes = x.estimate.bytes

theorem retainedBytes_le (hm : x.managed = false) (snapshotBytes candidateBytes : Int) :
    x.retainedBytes snapshotBytes candidateBytes ≤ x.estimate.bytes := by
  simp only [retainedBytes, hm, Bool.false_eq_true, if_false]
  omega

/-- A resize of a lease does not concern the reservation. -/
theorem resize_holds {W : Type} {M : World Call Reply W} (hM : Unseen M gs)
    (hm : x.managed = true) (bytes : Int) : Holds M gs (x.resize bytes) fun _ => True := by
  unfold resize
  rw [if_pos hm]
  refine (ask_holds hM (c := .leaseBytes) trivial).seq fun current => ?_
  split
  · exact (ask_holds hM (c := .leaseShrink _) trivial).seq fun _ => .pure trivial
  · exact ask_holds hM (c := .leaseGrow _) trivial

/-- A legacy resize is decided by the pool it finds. -/
theorem resize_survives (hm : x.managed = false) (bytes : Int) (s : ExecState) :
    Survives (x.resize bytes) (fun err s' => ∃ pool, err = (s.reservation.resize pool bytes).1 ∧
      s' = { s with reservation := (s.reservation.resize pool bytes).2.1 }) s := by
  unfold resize
  rw [hm, if_neg Bool.false_ne_true]
  exact ⟨trivial, fun pool _ _ => ⟨trivial, fun _ _ _ => ⟨pool, rfl, rfl⟩⟩⟩

/-- A commit between chunks leaves the reservation alone; the last one of a
chunk finds it full and only shrinks it. -/
theorem commitWriteCandidates_survives {candidates : List Candidate}
    (hc : CandidatesOf gs candidates) (hfull : s.attempt.finalCommit = true → x.Full s) :
    Survives (x.commitWriteCandidates candidates) (fun next s' => next ⊆ gs ∧
      (s.attempt.finalCommit = false → Held gs s s')) s := by
  have hM := unseen_blind gs
  have hwrite : ∀ s', (s.attempt.finalCommit = false → Held gs s s') →
      Survives (x.writeCandidates candidates) (fun next s' => next ⊆ gs ∧
        (s.attempt.finalCommit = false → Held gs s s')) s' := by
    intro s₁ hs₁
    refine (Survives.of_holds (x.writeCandidates_holds hM hc) s₁).mono ?_
    rintro next s₂ ⟨hnext, hs₂⟩
    exact ⟨hnext, fun hf => IsTrans.trans _ _ _ (hs₁ hf) hs₂⟩
  unfold commitWriteCandidates
  split
  · exact .pure ⟨by simp, fun _ => Std.Refl.refl s⟩
  refine (Survives.of_holds (contextError_holds hM) s).bind fun _ s₁ h₁ => ?_
  refine .bind_get ?_
  cases hm : x.managed with
  | true =>
    rw [Bool.or_true, if_pos rfl]
    refine (Survives.of_holds (x.resize_holds hM hm _) _).bind fun err s₂ h₂ => ?_
    have hs₂ : Held gs s s₂ := IsTrans.trans _ _ _ h₁.2 h₂.2
    cases err with
    | none => exact hwrite s₂ fun _ => hs₂
    | some e =>
      refine (Survives.of_holds (x.failCandidates_holds hM _ candidates hc) s₂).bind ?_
      rintro _ s₃ ⟨-, h₃⟩
      exact .pure ⟨by simp, fun _ => IsTrans.trans _ _ _ hs₂ h₃⟩
  | false =>
    rw [Bool.or_false]
    split
    · rename_i hfinal
      rw [h₁.2.finalCommit] at hfinal
      refine (resize_survives hm _ _).bind ?_
      rintro err s₂ ⟨pool, herr, -⟩
      cases err with
      | none => exact hwrite s₂ fun hf => by simp [hf] at hfinal
      | some e =>
        refine .fail (AdmissionReservation.resize_shrink_error ?_ herr.symm)
        rw [h₁.2.reservation, hfull hfinal hm]
        exact retainedBytes_le hm _ _
    · exact hwrite s₁ fun _ => h₁.2

theorem addCandidate_survives {g op c}
    (hc : ChunkOf gs c) (hearly : s.attempt.finalCommit = false) :
    Survives (x.addCandidate g op c) (fun _ => Held gs s) s := by
  have hM := unseen_blind gs
  unfold addCandidate
  split
  · refine (Survives.setAttempt gs rfl).bind fun _ s₁ h₁ => ?_
    have hearly₁ : s₁.attempt.finalCommit = false := h₁.finalCommit.trans hearly
    refine (commitWriteCandidates_survives hc.candidates (by simp [hearly₁])).bind ?_
    rintro conflicts s₂ ⟨-, h₂⟩
    refine (Survives.setAttempt gs rfl).bind fun _ s₃ h₃ => ?_
    refine (Survives.of_holds (x.shrinkLease_holds hM _) s₃).bind fun _ s₄ h₄ => .pure ?_
    calc
      Held gs s s₁ := h₁
      Held gs _ s₂ := h₂ hearly₁
      Held gs _ s₃ := h₃
      Held gs _ s₄ := h₄.2
  · exact .pure (Std.Refl.refl s)

theorem applySnapshot_survives {g : WriteGroup} (hg : g ∈ gs) (stored : Storage.ReadResult)
    {c : Chunk} (hc : ChunkOf gs c) (hearly : s.attempt.finalCommit = false) :
    Survives (x.applySnapshot g stored c) (fun _ => Held gs s) s := by
  have hM := unseen_blind gs
  unfold applySnapshot
  split
  · exact .pure (Std.Refl.refl s)
  refine (Survives.of_holds (x.prepareCandidate_holds hM hg stored) s).bind ?_
  rintro prepared s₁ ⟨-, h₁⟩
  cases prepared with
  | none =>
    refine (Survives.of_holds (x.complete_holds hM hg) s₁).bind ?_
    rintro _ s₂ ⟨-, h₂⟩
    exact .pure (IsTrans.trans _ _ _ h₁ h₂)
  | some op =>
    refine (Survives.of_holds (x.admitCandidate_holds hM hg op) s₁).bind ?_
    rintro admitted s₂ ⟨-, h₂⟩
    have hs₂ : Held gs s s₂ := IsTrans.trans _ _ _ h₁ h₂
    split
    · refine (addCandidate_survives hc (hs₂.finalCommit.trans hearly)).mono ?_
      intro _ s₃ h₃
      exact IsTrans.trans _ _ _ hs₂ h₃
    · exact .pure hs₂

theorem applySnapshots_survives :
    ∀ (snapshots : List (WriteGroup × Storage.ReadResult)) (c : Chunk) (s : ExecState),
      (∀ p ∈ snapshots, p.1 ∈ gs) → ChunkOf gs c → s.attempt.finalCommit = false →
        Survives (x.applySnapshots snapshots c) (fun _ => Held gs s) s
  | [], _, s, _, _, _ => .pure (Std.Refl.refl s)
  | (_, stored) :: rest, c, s, hsnap, hc, hearly => by
    have hg := hsnap _ List.mem_cons_self
    refine ((applySnapshot_survives hg stored hc hearly).and_frames
      (x.applySnapshot_frames (unseen_blind gs) hg stored hc)).bind ?_
    rintro c₁ s₁ ⟨hc₁, h₁⟩
    refine (applySnapshots_survives rest c₁ s₁ (List.forall_mem_cons.mp hsnap).2
      hc₁ (h₁.finalCommit.trans hearly)).mono ?_
    intro _ s₂ h₂
    exact IsTrans.trans _ _ _ h₁ h₂

/-- The last commit of the chunk is the only one made with the final flag. -/
theorem applyWriteSnapshots_survives {snapshots}
    (hsnap : ∀ p ∈ snapshots, p.1 ∈ gs) (hearly : s.attempt.finalCommit = false)
    (hfull : x.Full s) :
    Survives (x.applyWriteSnapshots snapshots) (fun _ s' => s'.attempt.finalCommit = false) s := by
  have hempty : ChunkOf gs ⟨[], [], [], 0⟩ := ⟨by simp, by simp, by simp [CandidatesOf]⟩
  refine ((applySnapshots_survives snapshots _ s hsnap hempty hearly).and_frames
    (x.applySnapshots_frames (unseen_blind gs) snapshots _ hsnap hempty)).bind ?_
  rintro c s₁ ⟨hc, h₁⟩
  refine .bind_setAttempt ?_
  refine (commitWriteCandidates_survives hc.candidates ?_).bind ?_
  · intro _ hm
    exact h₁.reservation ▸ hfull hm
  · rintro conflicts s₂ -
    exact .bind_setAttempt (.pure rfl)

theorem executeChunk_survives (batch : List WriteGroup) (hearly : s.attempt.finalCommit = false)
    (hfull : x.Full s) :
    Survives (x.executeChunk batch) (fun _ s' => s'.attempt.finalCommit = false) s := by
  have hread := x.readWriteSnapshots_holds (unseen_blind batch) fun _ h => h
  refine (Survives.of_holds hread s).bind ?_
  rintro snapshots s₁ ⟨-, h₁⟩
  have hsnap : ∀ p ∈ batch.zip snapshots, p.1 ∈ batch := fun p hp =>
    (List.of_mem_zip (a := p.1) (b := p.2) hp).1
  refine .bind_setAttempt (applyWriteSnapshots_survives hsnap (h₁.finalCommit.trans hearly) ?_)
  intro hm
  exact h₁.reservation ▸ hfull hm

/-- When the working set is restored the reservation is full again. -/
theorem restore_survives (s : ExecState) :
    Survives (x.resize x.estimate.bytes) (fun err s' =>
      s'.attempt.finalCommit = s.attempt.finalCommit ∧ (err = none → x.Full s')) s := by
  cases hm : x.managed with
  | true =>
    refine (Survives.of_holds (resize_holds (unseen_blind []) hm _) s).mono ?_
    rintro err s' ⟨-, hs'⟩
    exact ⟨hs'.finalCommit, fun _ h => by simp [hm] at h⟩
  | false =>
    refine (resize_survives hm _ s).mono ?_
    rintro err s' ⟨pool, rfl, rfl⟩
    exact ⟨rfl, fun h _ => (s.reservation.resize_reservation pool _).2.2 h⟩

theorem attemptLoop_survives :
    ∀ (fuel : Nat) (pending : List WriteGroup) (limit : Nat) (next : List WriteGroup)
      (s : ExecState), s.attempt.finalCommit = false →
        Survives (x.attemptLoop fuel pending limit next) (fun _ _ => True) s
  | 0, [], _, _, _, _ => .pure trivial
  | _ + 1, [], _, _, _, _ => .pure trivial
  | 0, _ :: _, _, _, _, _ => trivial
  | fuel + 1, g :: gs, limit, next, s, hearly => by
    have hM := unseen_blind (g :: gs)
    unfold attemptLoop
    refine (Survives.of_holds (contextError_holds hM) s).bind fun _ s₁ h₁ => ?_
    refine (restore_survives s₁).bind ?_
    rintro err s₂ ⟨hcommit, hfull⟩
    cases err with
    | some e =>
      have hfail := x.failGroups_holds hM (f := exhaustedResult e) (fun _ => rfl) (g :: gs)
        fun _ h => h
      exact (Survives.of_holds hfail s₂).bind fun _ _ _ => .pure trivial
    | none =>
      have hearly₂ : s₂.attempt.finalCommit = false :=
        hcommit.trans (h₁.2.finalCommit.trans hearly)
      refine (executeChunk_survives _ hearly₂ (hfull rfl)).bind ?_
      intro outcome s₃ hearly₃
      split <;> exact attemptLoop_survives fuel _ _ _ s₃ hearly₃

theorem attempts_survives (fuel : Nat) :
    ∀ (n : Nat) (groups : List WriteGroup) (s : ExecState),
      Survives (x.attempts fuel n groups) (fun _ _ => True) s
  | 0, _, _ => .pure trivial
  | _ + 1, [], _ => .pure trivial
  | n + 1, g :: gs, s => by
    unfold attempts executeWriteAttempt
    refine (Survives.of_holds (contextError_holds (unseen_blind [])) s).bind fun _ s₁ _ => ?_
    refine Survives.bind (.bind_setAttempt (attemptLoop_survives fuel _ _ _ _ rfl)) ?_
    intro next s₂ _
    exact attempts_survives fuel n next s₂

theorem executeWriteWave_survives (fuel : Nat) (groups : List WriteGroup) (s : ExecState) :
    Survives (x.executeWriteWave fuel groups) (fun _ _ => True) s := by
  have hputs := x.executePuts_holds (unseen_blind _)
    (List.Subset.refl (groups.filter (·.directPut)))
  refine (Survives.of_holds hputs s).bind fun _ s₁ _ => ?_
  refine (attempts_survives fuel _ _ s₁).bind fun pending s₂ _ => ?_
  have hfail := x.failGroups_holds (unseen_blind pending) (f := conflictResult) (fun _ => rfl)
    pending fun _ h => h
  exact (Survives.of_holds hfail s₂).mono fun _ _ _ => trivial

theorem waves_survives (fuel : Nat) :
    ∀ (rounds : Nat) (groups : List WriteGroup) (s : ExecState),
      Survives (x.waves fuel rounds groups) (fun _ _ => True) s
  | 0, [], _ => .pure trivial
  | _ + 1, [], _ => .pure trivial
  | 0, _ :: _, _ => trivial
  | rounds + 1, g :: gs, s => by
    refine (executeWriteWave_survives fuel _ s).bind fun _ s₁ _ => ?_
    exact waves_survives fuel rounds _ s₁

/-- No error of an execution says that capacity is exhausted. -/
theorem executeWriteGroups_survives (fuel : Nat) (groups : List WriteGroup) (s : ExecState) :
    Survives (x.executeWriteGroups fuel groups) (fun _ _ => True) s :=
  waves_survives fuel _ groups s

end WriteExecution

/-! ## Requests -/

/-- The call changes stored records. -/
def Call.mutates : Call → Bool
  | .write _ _ => true
  | .delete _ _ => true
  | _ => false

/-- The observer that remembers whether stored records may have changed. -/
def mutated : World Call Reply Bool := observer (fun w c _ => w || c.mutates) fun _ _ => True

theorem observe_mutates {h : Log} (hnone : observe (fun w c _ => w || c.mutates) false h = false) :
    ∀ ev ∈ h, ev.call.mutates = false := by
  induction h with
  | nil => simp
  | cons e h ih =>
    simp only [observe, Bool.or_eq_false_iff] at hnone
    exact List.forall_mem_cons.mpr ⟨hnone.2, ih hnone.1⟩

/-- A step before the execution: no stored record changes. -/
abbrev Prepares (y : ServerM α) : Prop :=
  Keeps mutated (fun _ _ => True) (fun _ => True) y fun _ => True

/-- The request changes no record, or its error is not an exhausted capacity. -/
def Unexecuted (y : ServerM α) : Prop :=
  ∀ s, wp mutated (fun r _ w => Ends (fun _ => True) (fun e => NotExhausted e ∨ w = false) r)
    y s false

instance : Std.Refl (fun _ _ : ExecState => True) := ⟨fun _ => trivial⟩

instance : IsTrans ExecState (fun _ _ => True) := ⟨fun _ _ _ _ _ => trivial⟩

theorem ask_prepares {c : Call} (hc : c.mutates = false) : Prepares (ask c) :=
  .call fun w => ⟨trivial, fun r w' hw => by
    have hstep : w' = (w || c.mutates) := hw
    rw [hstep, hc, Bool.or_false]⟩

theorem contextError_prepares : Prepares contextError := by
  refine (ask_prepares (c := .contextErr) rfl).seq fun err => ?_
  cases err with
  | none => exact .pure trivial
  | some e => exact .fail trivial

theorem raise_prepares (err : Option GoError) : Prepares (raise err) := by
  cases err with
  | none => exact .pure trivial
  | some e => exact .fail trivial

namespace Unexecuted

variable {y : ServerM α}

theorem of_prepares (hy : Prepares y) : Unexecuted y := by
  intro s
  refine wp_mono ?_ (hy s false)
  rintro (e | a) s' w ⟨rfl, -, -⟩
  · exact .inr rfl
  · trivial

theorem of_survives (hy : ∀ s, Survives y (fun _ _ => True) s) : Unexecuted y :=
  fun s => wp_mono (fun _ _ _ h => h.mono (fun _ h => h) fun _ he => .inl he)
    (wp_of_blind false (hy s))

theorem bind {f : α → ServerM β} (hy : Prepares y) (hf : ∀ a, Unexecuted (f a)) :
    Unexecuted (y >>= f) := by
  intro s
  refine wp_seq (hy s false) ?_ ?_
  · rintro a s₁ w ⟨rfl, -, -⟩
    exact hf a s₁
  · rintro e s₁ w ⟨rfl, -, -⟩
    exact .inr rfl

theorem answer (hy : Unexecuted y) (f : ExecState → β) :
    Unexecuted (y >>= fun _ => Exec.get >>= fun s => Pure.pure (f s)) :=
  fun s => wp_seq (hy s) (fun _ _ _ _ => trivial) fun _ _ _ he => he

end Unexecuted

namespace Server

variable (srv : Server)

theorem parseWrites_prepares (programs : LuaPrograms) :
    ∀ (index : Nat) (ops : List (Option WriteOperation)),
      Prepares (srv.parseWrites programs index ops)
  | _, [] => .pure trivial
  | index, op :: ops => by
    refine contextError_prepares.seq fun _ => contextError_prepares.seq fun _ => ?_
    have hrest := parseWrites_prepares programs (index + 1) ops
    cases srv.codec.parseWrite index op programs with
    | error err =>
      refine Keeps.seq (.modify fun _ => trivial) fun _ => Keeps.get.seq fun s => ?_
      exact (ask_prepares (c := .complete _) rfl).seq fun _ => hrest
    | ok write => exact hrest.seq fun _ => .pure trivial

theorem publishWrites_prepares (scope : Bool) (operations : List AcceptedWrite) :
    Prepares (srv.publishWrites scope operations) := by
  have hset : ∀ f, Prepares (setResults f) := fun f => .modify fun _ => trivial
  unfold publishWrites growPublish
  split
  · exact .pure trivial
  split
  · exact hset _
  refine Keeps.seq ?_ fun refused => ?_
  · split
    · exact ask_prepares (c := .publishGrow _) rfl
    · exact .pure trivial
  · cases refused with
    | some err => exact hset _
    | none =>
      refine (ask_prepares (c := .publish _) rfl).seq fun response => ?_
      cases response with
      | error err => exact .fail trivial
      | ok published =>
        dsimp only
        split
        · exact .fail trivial
        · exact hset _

variable (fuel : Nat) (scope : Bool) (req : WriteRequest) (x : WriteExecution)

theorem perform_unexecuted
    (operations : List AcceptedWrite) : Unexecuted (srv.perform fuel scope req x operations) := by
  unfold perform
  split
  · exact .of_prepares (srv.publishWrites_prepares scope operations)
  · exact .of_survives (WriteExecution.executeWriteGroups_survives fuel _)

theorem processWrite_unexecuted : Unexecuted (srv.processWrite fuel scope req x) := by
  unfold processWrite
  cases srv.codec.parseLuaPrograms req.luaPrograms with
  | error err => exact .of_prepares (.fail trivial)
  | ok programs =>
    refine .bind (.modify fun _ => trivial) fun _ => ?_
    refine .bind (srv.parseWrites_prepares programs 0 _) fun operations => ?_
    exact (srv.perform_unexecuted fuel scope req x operations).answer _

theorem write_unexecuted (fuel : Nat) (ctx : RequestContext) (req : WriteRequest)
    (budgets : Option RequestBudgets) : Unexecuted (srv.write fuel ctx req budgets) := by
  refine .bind (raise_prepares _) fun _ => ?_
  refine .bind (ask_prepares (c := .admitRequest _) rfl) fun refused => ?_
  exact .bind (raise_prepares refused) fun _ => srv.processWrite_unexecuted fuel _ req _

theorem storeDeletes_survives (req : DeleteRequest) (operations : List AcceptedDelete)
    (results : List DeleteResult) (s : ExecState) :
    Survives (storeDeletes req operations results) (fun _ _ => True) s := by
  unfold storeDeletes
  dsimp only
  split
  · exact .pure trivial
  refine Survives.bind (P := fun _ _ => True) ⟨trivial, fun _ _ _ => trivial⟩ ?_
  intro response s' _
  cases response with
  | error err => exact .fail (by simp [NotExhausted, GoError.statusCode])
  | ok stored =>
    dsimp only
    split
    · exact .fail (by simp [NotExhausted, GoError.statusCode])
    · exact .pure trivial

theorem publishDeletes_prepares (operations : List AcceptedDelete) (results : List DeleteResult) :
    Prepares (srv.publishDeletes operations results) := by
  unfold publishDeletes
  split
  · exact .pure trivial
  split
  · exact .pure trivial
  refine (ask_prepares (c := .publish _) rfl).seq fun response => ?_
  cases response with
  | error err => exact .fail trivial
  | ok published =>
    dsimp only
    split
    · exact .fail trivial
    · exact .pure trivial

theorem delete_unexecuted (req : DeleteRequest) (budgets : Option RequestBudgets) :
    Unexecuted (srv.delete req budgets) := by
  refine .bind (raise_prepares _) fun _ => ?_
  refine .bind (ask_prepares (c := .admitRequest _) rfl) fun refused => ?_
  refine .bind (raise_prepares refused) fun _ => ?_
  split
  · exact .of_prepares ((srv.publishDeletes_prepares _ _).seq fun _ => .pure trivial)
  · exact .of_survives fun s => (storeDeletes_survives req _ _ s).bind fun _ _ _ => .pure trivial

end Server

theorem Unexecuted.runs {y : ServerM α} (hy : Unexecuted y) {s s' : ExecState} {e : GoError}
    {h : Log} (hrun : Runs (anyLog Call Reply) y s [] (.error e) s' h)
    (he : e.statusCode = .resourceExhausted) : ∀ ev ∈ h, ev.call.mutates = false := by
  have hpost := wp_sound hrun (wp_log (h := []) (hy s))
  rcases hpost with hne | hw
  · exact absurd he hne
  · exact observe_mutates hw

/-- A request that ends with `ResourceExhausted` was not executed: whatever
the storage, the pools and the context answer, no record was written or
deleted. -/
theorem Server.exhausted_unexecuted (srv : Server) (fuel : Nat) (ctx : RequestContext)
    (write : WriteRequest) (delete : DeleteRequest) (s s' : ExecState) (e : GoError) (h : Log)
    (he : e.statusCode = .resourceExhausted) :
    (Runs (anyLog Call Reply) (srv.Write fuel ctx write) s [] (.error e) s' h →
      ∀ ev ∈ h, ∀ operations visible, ev.call ≠ .write operations visible) ∧
    (Runs (anyLog Call Reply) (srv.Delete delete) s [] (.error e) s' h →
      ∀ ev ∈ h, ∀ addresses visible, ev.call ≠ .delete addresses visible) := by
  constructor
  · intro hrun ev hev operations visible hcall
    have hy : Unexecuted (srv.Write fuel ctx write) :=
      .bind (raise_prepares _) fun _ => srv.write_unexecuted fuel ctx write _
    have hnone := hy.runs hrun he ev hev
    simp [hcall, Call.mutates] at hnone
  · intro hrun ev hev addresses visible hcall
    have hy : Unexecuted (srv.Delete delete) :=
      .bind (raise_prepares _) fun _ => srv.delete_unexecuted delete none
    have hnone := hy.runs hrun he ev hev
    simp [hcall, Call.mutates] at hnone

/-- A store in which every commit loses its race. -/
def outraced (w : MemoryWorld) : (c : Call) → Reply c × MemoryWorld
  | .write ops _ => (.ok (ops.map fun _ => ⟨.preconditionFailed, [], none⟩), w)
  | c => w.handle c

/-- Admission refuses a write and a delete of one record. A merge is executed,
loses its race, and then cannot restore its working set: that is the result of
the operation, not an error of the request. -/
theorem Server.exhausted_unexecuted_refused :
    let full : GoError := .status .resourceExhausted (lit "Sink execution capacity is full")
    let put : WriteOperation := ⟨[97], .put (some ⟨some ⟨.json, [1]⟩, .upsert⟩), false⟩
    let merge : WriteOperation := ⟨[97], .merge (some ⟨some ⟨.json, [1]⟩, some ⟨[7], []⟩⟩), false⟩
    let writes (op : WriteOperation) :=
      Server.small.Write 1 ⟨none, false⟩ ⟨[some op], .waitUntilApplied, []⟩
    let deletes := Server.small.Delete ⟨[some ⟨[97]⟩], .waitUntilApplied⟩
    ∃ s, (∃ ev, Runs (anyLog Call Reply) (writes put) s [] (.error full) s [ev] ∧
        ∀ operations visible, ev.call ≠ .write operations visible) ∧
      (∃ ev, Runs (anyLog Call Reply) deletes s [] (.error full) s [ev] ∧
        ∀ addresses visible, ev.call ≠ .delete addresses visible) ∧
      ∃ response s' h, Runs (anyLog Call Reply) (writes merge) s [] (.ok response) s' h ∧
        response.map (fun r => r.failure.map (·.code)) = [some .resourceExhausted] := by
  intro full put merge writes deletes
  let request : WriteRequest := ⟨[some put], .waitUntilApplied, []⟩
  let s := Server.started request (Server.small.execution request none ⟨0, 0⟩)
  have hwrites : ∃ ev, Runs (anyLog Call Reply) (writes put) s [] (.error full) s [ev] :=
    ⟨⟨.admitRequest _, some full⟩, .call (r := some full) rfl (.ret _ _)⟩
  have hdeletes : ∃ ev, Runs (anyLog Call Reply) deletes s [] (.error full) s [ev] :=
    ⟨⟨.admitRequest _, some full⟩, .call (r := some full) rfl (.ret _ _)⟩
  have hmerge : (Exec.run outraced (writes merge) s ⟨.empty, 0, 0⟩).map (fun out =>
      out.1.toOption.map (·.map fun r => r.failure.map (·.code))) =
        some (some [some .resourceExhausted]) := by decide +kernel +zetaReduce
  obtain ⟨ev, hw⟩ := hwrites
  obtain ⟨ev', hd⟩ := hdeletes
  refine ⟨s, ⟨ev, hw, ?_⟩, ⟨ev', hd, ?_⟩, ?_⟩
  · exact (Server.exhausted_unexecuted _ _ _ _ ⟨[], .waitUntilApplied⟩ _ _ _ _ rfl).1 hw ev
      List.mem_cons_self
  · exact (Server.exhausted_unexecuted _ 1 ⟨none, false⟩ ⟨[], .waitUntilApplied, []⟩ _ _ _ _ _
      rfl).2 hd ev' List.mem_cons_self
  · obtain ⟨⟨_ | response, s', w'⟩, hcompute, hout⟩ := Option.map_eq_some_iff.mp hmerge
    · cases hout
    obtain ⟨h, hrun⟩ := runs_of_run hcompute []
    exact ⟨response, s', h, hrun, Option.some.inj hout⟩

end Sink
