import Sink.Footprint
import Sink.Lib.Rounds
import Sink.MemoryWorld
import Sink.SnapshotBudget

/-!
# One attempt settles every group once

`executeWriteAttempt` reads its groups in chunks. Snapshots that do not fit
into the working set are deferred, and their groups are read again in front of
the rest. The loop ends because the first snapshot of a chunk is charged to an
unused working set, so its group is never deferred.

The world here answers reads as the in-memory store does, each time with any
contents, and everything else in any way; it records which records are read and
evaluated and which results are completed. Running out of fuel is not allowed
in it, so what is proved includes that the attempt ends.
-/

namespace Sink

open Interact Interact.Exec Worklist List

/-! ## What is recorded -/

inductive AttemptStep where
  /-- A chunk is read. -/
  | read (operations : List ReadOperation)
  /-- The group of a record is evaluated. -/
  | evaluate (address : Address)
deriving Repr, DecidableEq

/-- The reads and evaluations in order, and the results handed out. -/
structure AttemptTrace where
  steps : List AttemptStep
  completed : List (Nat × WriteResult)

def AttemptTrace.empty : AttemptTrace := ⟨[], []⟩

/-- Record a call; a read of nothing is no step. -/
def AttemptTrace.see (w : AttemptTrace) : Call → AttemptTrace
  | .read operations _ =>
    if operations.isEmpty then w else { w with steps := w.steps ++ [.read operations] }
  | .evaluate address => { w with steps := w.steps ++ [.evaluate address] }
  | .complete results => { w with completed := w.completed ++ results }
  | _ => w

/-- Reads are answered as `memory.Store.Read` answers them. -/
def ReadsAsMemory : (c : Call) → Reply c → Prop
  | .read operations cells, reply =>
    ∃ (store : Memory.Store) (lease : List (Option GoError)),
      (∀ answer ∈ lease, Conclusive answer) ∧
      reply = (.ok (store.read operations ⟨cells, lease⟩).1,
        (store.read operations ⟨cells, lease⟩).2.cells)
  | _, _ => True

def attemptWorld : World Call Reply AttemptTrace where
  allowed _ _ := True
  answer w c r w' := w' = w.see c ∧ ReadsAsMemory c r
  mayDiverge := False

theorem attemptWorld_unseen : Unseen attemptWorld [] := by
  intro c hc w
  refine ⟨trivial, fun r w' hw => ?_⟩
  rw [hw.1]
  cases c with
  | read operations cells =>
    cases operations with
    | nil => rfl
    | cons op operations =>
      obtain ⟨g, hg, -⟩ := hc op mem_cons_self
      cases hg
  | evaluate address =>
    obtain ⟨g, hg, -⟩ := hc
    cases hg
  | complete results =>
    cases results with
    | nil => simp [AttemptTrace.see]
    | cons p results =>
      obtain ⟨g, hg, -⟩ := hc p mem_cons_self
      cases hg
  | _ => rfl

/-- If the program returns, `P` holds of what it returns; it does return or fail. -/
abbrev Ensures {α : Type} (P : α → ExecState → AttemptTrace → Prop) (y : ServerM α) (s : ExecState)
    (w : AttemptTrace) : Prop :=
  Exec.wp attemptWorld (fun r s w => Ends (fun a => P a s w) (fun _ => True) r) y s w

section Rules

variable {α β : Type} {P : α → ExecState → AttemptTrace → Prop}
  {Q : β → ExecState → AttemptTrace → Prop} {y : ServerM α} {f : α → ServerM β}
  {s : ExecState} {w : AttemptTrace}

theorem ensures_seq (hy : Ensures P y s w) (hf : ∀ a s w, P a s w → Ensures Q (f a) s w) :
    Ensures Q (y >>= f) s w :=
  wp_seq hy hf fun _ _ _ _ => trivial

theorem ensures_mono {P'} (hy : Ensures P y s w)
    (hP : ∀ a s w, P a s w → P' a s w) : Ensures P' y s w :=
  wp_mono (fun _ s w hr => hr.mono (fun a => hP a s w) fun _ h => h) hy

theorem ensures_ask (c : Call) {P}
    (h : ∀ r, ReadsAsMemory c r → P r s (w.see c)) : Ensures P (ask c) s w := by
  refine ⟨trivial, fun r w' hw => ?_⟩
  rw [hw.1]
  exact h r hw.2

theorem ensures_set_seq {g f}
    (h : Ensures Q (f ()) (g s) w) : Ensures Q (Exec.modify g >>= f) s w := h

theorem ensures_get_seq {f : ExecState → ServerM β} (h : Ensures Q (f s) s w) :
    Ensures Q (Exec.get >>= f) s w := h

variable {p : α → Prop}

/-- What works on no group is not recorded, and leaves the results alone. -/
theorem ensures_frame (hy : Frames attemptWorld [] y p) :
    Ensures (fun a s' w' => w' = w ∧ s'.results = s.results ∧ p a) y s w := by
  refine wp_mono ?_ (hy s w)
  rintro r s' w' ⟨hw, hs, hr⟩
  have hresults : s'.results = s.results := funext fun i => hs.results i (by simp)
  exact hr.mono (fun a ha => ⟨hw, hresults, ha⟩) fun _ _ => trivial

theorem ensures_frame_seq (hy : Frames attemptWorld [] y p)
    (hf : ∀ a s', s'.results = s.results → Ensures Q (f a) s' w) : Ensures Q (y >>= f) s w := by
  refine ensures_seq (ensures_frame hy) ?_
  rintro a s' w' ⟨rfl, hs, -⟩
  exact hf a s' hs

end Rules

/-! ## Progress -/

/-- These steps were made and these groups completed. -/
structure AttemptTrace.Goes (w w' : AttemptTrace) (steps : List AttemptStep)
    (done : List WriteGroup) : Prop where
  steps : w'.steps = w.steps ++ steps
  completed : w'.completed.map Prod.fst = w.completed.map Prod.fst ++ done.flatMap (·.indexes)
  /-- What was handed out stays handed out. -/
  kept : w.completed ⊆ w'.completed

namespace AttemptTrace.Goes

variable {w w₁ w₂ : AttemptTrace} {steps steps' : List AttemptStep} {done done' : List WriteGroup}

theorem refl (w : AttemptTrace) : Goes w w [] [] := ⟨by simp, by simp, Subset.refl _⟩

theorem trans (h : Goes w w₁ steps done) (h' : Goes w₁ w₂ steps' done') :
    Goes w w₂ (steps ++ steps') (done ++ done') where
  steps := by rw [h'.steps, h.steps, append_assoc]
  completed := by rw [h'.completed, h.completed, flatMap_append, append_assoc]
  kept := fun _ hp => h'.kept (h.kept hp)

end AttemptTrace.Goes

namespace WriteExecution

variable (x : WriteExecution) {s : ExecState} {w : AttemptTrace}

/-- The results of the operations are handed out. -/
theorem complete_ensures (g : WriteGroup) :
    Ensures (fun _ _ w' => w.Goes w' [] [g] ∧
        ∀ op ∈ g.operations, (op.index, s.results op.index) ∈ w'.completed)
      (x.complete g.operations) s w := by
  refine ensures_frame_seq (holds_frames (x.settleReturns_holds attemptWorld_unseen _)) ?_
  intro _ s' hs
  refine ensures_get_seq (ensures_ask (.complete _) fun _ _ => ⟨⟨?_, ?_, ?_⟩, ?_⟩)
  · simp [AttemptTrace.see]
  · simp [AttemptTrace.see, WriteGroup.indexes]
  · exact subset_append_left _ _
  · intro op hop
    rw [← hs]
    exact mem_append_right _ (mem_map.mpr ⟨op, hop, rfl⟩)

variable (g : WriteGroup) (stored : Storage.WriteResult)

theorem settleGroup_ensures :
    Ensures (fun _ _ w' => w.Goes w' [] [g]) (x.settleGroup g.operations stored) s w :=
  ensures_set_seq (ensures_mono (x.complete_ensures g) fun _ _ _ h => h.1)

theorem settleStored_ensures (document : Document) :
    Ensures (fun _ _ w' => w.Goes w' [] [g]) (x.settleStored g.operations stored document) s w :=
  ensures_set_seq (ensures_mono (x.complete_ensures g) fun _ _ _ h => h.1)

/-! ## Commits -/

theorem failCandidates_ensures (err : GoError) (candidates : List Candidate) :
    Ensures (fun _ _ w' => w.Goes w' [] (candidates.map (·.1)))
      (x.failCandidates err candidates) s w := by
  induction candidates generalizing s w with
  | nil => exact .refl w
  | cons c rest ih =>
    obtain ⟨g, op⟩ := c
    refine ensures_seq (x.settleGroup_ensures g _) fun _ s₁ w₁ h₁ => ?_
    exact ensures_mono ih fun _ _ _ h₂ => h₁.trans h₂

theorem settleCandidates_ensures (pairs : List (Candidate × Storage.WriteResult)) :
    Ensures (fun next _ w' => ∃ done, w.Goes w' [] done ∧
        (done ++ next).Perm (pairs.map (·.1.1))) (x.settleCandidates pairs) s w := by
  induction pairs generalizing s w with
  | nil => exact ⟨[], .refl w, .refl _⟩
  | cons pair rest ih =>
    obtain ⟨⟨g, op⟩, stored⟩ := pair
    unfold settleCandidates
    split
    · refine ensures_seq ih ?_
      rintro next s₁ w₁ ⟨done, hgoes, hperm⟩
      exact ⟨done, hgoes, perm_middle.trans (hperm.cons g)⟩
    · refine ensures_seq (x.settleStored_ensures g stored op.document) fun _ s₁ w₁ h₁ => ?_
      refine ensures_mono ih ?_
      rintro next s₂ w₂ ⟨done, hgoes, hperm⟩
      exact ⟨g :: done, h₁.trans hgoes, hperm.cons g⟩

theorem writeCandidates_ensures (candidates : List Candidate) :
    Ensures (fun next _ w' => ∃ done, w.Goes w' [] done ∧
        (done ++ next).Perm (candidates.map (·.1))) (x.writeCandidates candidates) s w := by
  refine ensures_seq (P := fun _ _ w' => w' = w) (ensures_ask (.write _ _) fun _ _ => rfl) ?_
  rintro response s₁ w₁ rfl
  cases response with
  | error e => trivial
  | ok stored =>
    dsimp only
    split
    · trivial
    have hgroups : (candidates.zip stored).map (·.1.1) = candidates.map (·.1) := by
      have hfst : (candidates.zip stored).map Prod.fst = candidates :=
        map_fst_zip (by omega)
      calc (candidates.zip stored).map (·.1.1)
          = ((candidates.zip stored).map Prod.fst).map (·.1) := by rw [map_map]; rfl
        _ = candidates.map (·.1) := by rw [hfst]
    rw [← hgroups]
    exact x.settleCandidates_ensures _

theorem commitWriteCandidates_ensures (candidates : List Candidate) :
    Ensures (fun next _ w' => ∃ done, w.Goes w' [] done ∧
        (done ++ next).Perm (candidates.map (·.1))) (x.commitWriteCandidates candidates) s w := by
  unfold commitWriteCandidates
  split
  · rename_i hempty
    rw [isEmpty_iff.mp hempty]
    exact ⟨[], .refl w, .refl _⟩
  · refine ensures_frame_seq (holds_frames (contextError_holds attemptWorld_unseen)) ?_
    intro _ s₁ _
    refine ensures_get_seq ?_
    split
    · refine ensures_frame_seq (x.resize_frames attemptWorld_unseen _) fun err s₂ _ => ?_
      cases err with
      | none => exact x.writeCandidates_ensures candidates
      | some e =>
        dsimp only
        split
        · refine ensures_seq (x.failCandidates_ensures _ candidates) fun _ s₃ w₃ h => ?_
          exact ⟨_, h, by rw [append_nil]⟩
        · trivial
    · exact x.writeCandidates_ensures candidates

/-! ## One chunk -/

theorem prepareCandidate_ensures (g : WriteGroup) (stored : Storage.ReadResult) :
    Ensures (fun _ _ w' => w.Goes w' [.evaluate g.address] [])
      (x.prepareCandidate g stored) s w := by
  have hgoes : w.Goes (w.see (.evaluate g.address)) [.evaluate g.address] [] :=
    ⟨rfl, by simp [AttemptTrace.see], Subset.refl _⟩
  refine ensures_seq (P := fun _ _ w' => w' = w.see (.evaluate g.address))
    (ensures_ask (.evaluate _) fun _ _ => rfl) ?_
  rintro ctx s₁ w₁ rfl
  refine ensures_get_seq ?_
  split
  · exact hgoes
  · exact hgoes

variable (g : WriteGroup) (op : Storage.WriteOperation)

theorem rejectCandidate_ensures (err : GoError) :
    Ensures (fun kept _ w' => kept = false ∧ w.Goes w' [] [g])
      (x.rejectCandidate g op err) s w := by
  refine ensures_frame_seq (holds_frames (x.shrinkLease_holds attemptWorld_unseen _)) ?_
  intro _ s₁ _
  exact ensures_seq (x.settleGroup_ensures g _) fun _ _ _ h => ⟨rfl, h⟩

theorem admitCandidate_ensures :
    Ensures (fun kept _ w' => w.Goes w' [] (if kept then [] else [g]))
      (x.admitCandidate g op) s w := by
  have hkept : w.Goes w [] (if true then [] else [g]) := .refl w
  have hrejected : ∀ (s : ExecState) (err : GoError), Ensures (fun kept _ w' =>
      w.Goes w' [] (if kept then [] else [g])) (x.rejectCandidate g op err) s w := by
    intro s err
    refine ensures_mono (x.rejectCandidate_ensures g op err) ?_
    rintro kept s' w' ⟨rfl, hgoes⟩
    exact hgoes
  refine ensures_frame_seq (holds_frames (x.growLease_holds attemptWorld_unseen _)) ?_
  intro growthErr s₁ _
  cases growthErr with
  | some e => exact ensures_seq (x.settleGroup_ensures g _) fun _ _ _ h => h
  | none =>
    refine ensures_frame_seq (holds_frames (x.reserveReturns_holds attemptWorld_unseen _ _)) ?_
    intro returnErr s₂ _
    cases returnErr with
    | some e => exact hrejected s₂ e
    | none =>
      dsimp only
      split
      · exact hkept
      refine ensures_get_seq ?_
      split
      · exact hrejected s₂ _
      · exact hkept

def Chunk.open (c : Chunk) : List WriteGroup := c.conflicts ++ c.candidates.map (·.1)

theorem addCandidate_ensures (g : WriteGroup) (op : Storage.WriteOperation) (c : Chunk) :
    Ensures (fun c' _ w' => ∃ done, w.Goes w' [] done ∧ c'.deferred = c.deferred ∧
        (done ++ c'.open).Perm (c.open ++ [g])) (x.addCandidate g op c) s w := by
  unfold addCandidate
  split
  · refine ensures_set_seq (ensures_seq (x.commitWriteCandidates_ensures c.candidates) ?_)
    rintro conflicts s₁ w₁ ⟨done, hgoes, hperm⟩
    refine ensures_set_seq ?_
    refine ensures_frame_seq (holds_frames (x.shrinkLease_holds attemptWorld_unseen _)) ?_
    intro _ s₂ _
    refine ⟨done, hgoes, rfl, ?_⟩
    have hmoved :
        (done ++ (c.conflicts ++ conflicts)).Perm (c.conflicts ++ (done ++ conflicts)) := by
      rw [← append_assoc, ← append_assoc]
      exact perm_append_comm.append_right _
    have hopen : (done ++ (c.conflicts ++ conflicts)).Perm c.open :=
      hmoved.trans (hperm.append_left _)
    simpa only [Chunk.open, map_cons, map_nil, append_assoc] using hopen.append_right [g]
  · refine ⟨[], .refl w, rfl, ?_⟩
    simp [Chunk.open]

variable (pairs : List (WriteGroup × Storage.ReadResult))

def evaluatedGroups : List WriteGroup :=
  (pairs.filter fun p => !isDeferred p.2).map (·.1)

def deferredGroups : List WriteGroup :=
  (pairs.filter fun p => isDeferred p.2).map (·.1)

/-- What one snapshot, or all of them, did to the chunk. -/
structure Applied (w w' : AttemptTrace) (c c' : Chunk) (evaluated deferred done : List WriteGroup) :
    Prop where
  goes : w.Goes w' (evaluated.map fun g => .evaluate g.address) done
  deferred : c'.deferred = c.deferred ++ deferred
  settled : (done ++ c'.open).Perm (c.open ++ evaluated)

variable {w w₁ w₂ : AttemptTrace}

theorem Applied.trans {c c₁ c₂ : Chunk}
    {evaluated evaluated' deferred deferred' done done' : List WriteGroup}
    (h : Applied w w₁ c c₁ evaluated deferred done)
    (h' : Applied w₁ w₂ c₁ c₂ evaluated' deferred' done') :
    Applied w w₂ c c₂ (evaluated ++ evaluated') (deferred ++ deferred') (done ++ done') where
  goes := by
    rw [map_append]
    exact h.goes.trans h'.goes
  deferred := by rw [h'.deferred, h.deferred, append_assoc]
  settled := by
    have hlater : (done ++ (done' ++ c₂.open)).Perm (done ++ (c₁.open ++ evaluated')) :=
      h'.settled.append_left done
    have hfirst : ((done ++ c₁.open) ++ evaluated').Perm ((c.open ++ evaluated) ++ evaluated') :=
      h.settled.append_right evaluated'
    simp only [append_assoc] at hlater hfirst ⊢
    exact hlater.trans hfirst

theorem applySnapshot_ensures (g : WriteGroup) (stored : Storage.ReadResult) (c : Chunk) :
    Ensures (fun c' _ w' => ∃ done, Applied w w' c c' (evaluatedGroups [(g, stored)])
        (deferredGroups [(g, stored)]) done) (x.applySnapshot g stored c) s w := by
  unfold applySnapshot
  split
  · rename_i hdeferred
    refine ⟨[], ?_⟩
    simp only [evaluatedGroups, deferredGroups, filter_cons, hdeferred]
    exact ⟨.refl w, rfl, by simp [Chunk.open]⟩
  · rename_i hnot
    have hevaluated : evaluatedGroups [(g, stored)] = [g] ∧ deferredGroups [(g, stored)] = [] := by
      simp [evaluatedGroups, deferredGroups, hnot]
    rw [hevaluated.1, hevaluated.2]
    refine ensures_seq (x.prepareCandidate_ensures g stored) fun prepared s₁ w₁ h₁ => ?_
    -- a group that is completed without a commit
    have hcompleted : ∀ w₂, w₁.Goes w₂ [] [g] → Applied w w₂ c c [g] [] [g] := fun w₂ h₂ =>
      ⟨h₁.trans h₂, (append_nil _).symm, perm_append_comm⟩
    cases prepared with
    | none =>
      refine ensures_seq (x.complete_ensures g) fun _ s₂ w₂ h₂ => ?_
      exact ⟨[g], hcompleted w₂ h₂.1⟩
    | some op =>
      refine ensures_seq (x.admitCandidate_ensures g op) fun admitted s₂ w₂ h₂ => ?_
      cases admitted with
      | false => exact ⟨[g], hcompleted w₂ h₂⟩
      | true =>
        refine ensures_mono (x.addCandidate_ensures g op c) ?_
        rintro c' s₃ w₃ ⟨done, hgoes, hdeferred, hperm⟩
        refine ⟨done, (h₁.trans h₂).trans hgoes, ?_, hperm⟩
        rw [hdeferred, append_nil]

variable (pairs : List (WriteGroup × Storage.ReadResult))

theorem applySnapshots_ensures (c : Chunk) :
    Ensures (fun c' _ w' => ∃ done, Applied w w' c c' (evaluatedGroups pairs)
        (deferredGroups pairs) done) (x.applySnapshots pairs c) s w := by
  induction pairs generalizing s w c with
  | nil => exact ⟨[], .refl w, (append_nil _).symm, by simp [evaluatedGroups]⟩
  | cons pair rest ih =>
    obtain ⟨g, stored⟩ := pair
    have hevaluated : evaluatedGroups ((g, stored) :: rest) =
        evaluatedGroups [(g, stored)] ++ evaluatedGroups rest := by
      simp only [evaluatedGroups, ← map_append, ← filter_append, singleton_append]
    have hdeferred : deferredGroups ((g, stored) :: rest) =
        deferredGroups [(g, stored)] ++ deferredGroups rest := by
      simp only [deferredGroups, ← map_append, ← filter_append, singleton_append]
    rw [hevaluated, hdeferred]
    refine ensures_seq (x.applySnapshot_ensures g stored c) ?_
    rintro c₁ s₁ w₁ ⟨done₁, h₁⟩
    refine ensures_mono (ih c₁) ?_
    rintro c₂ s₂ w₂ ⟨done₂, h₂⟩
    exact ⟨done₁ ++ done₂, h₁.trans h₂⟩

/-- Every evaluated group of a chunk is completed or returned as a conflict. -/
theorem applyWriteSnapshots_ensures :
    Ensures (fun outcome _ w' => outcome.2 = deferredGroups pairs ∧
        ∃ done, w.Goes w' ((evaluatedGroups pairs).map fun g => .evaluate g.address) done ∧
          (done ++ outcome.1).Perm (evaluatedGroups pairs)) (x.applyWriteSnapshots pairs) s w := by
  refine ensures_seq (x.applySnapshots_ensures pairs ⟨[], [], [], 0⟩) ?_
  rintro c s₁ w₁ ⟨done, happlied⟩
  refine ensures_set_seq (ensures_seq (x.commitWriteCandidates_ensures c.candidates) ?_)
  rintro conflicts s₂ w₂ ⟨done', hgoes, hperm⟩
  refine ensures_set_seq ⟨happlied.deferred, done ++ done', ?_, ?_⟩
  · have hall := happlied.goes.trans hgoes
    rwa [append_nil] at hall
  · have hmoved : (done' ++ (c.conflicts ++ conflicts)).Perm
        (c.conflicts ++ (done' ++ conflicts)) := by
      rw [← append_assoc, ← append_assoc]
      exact perm_append_comm.append_right _
    have hopen : (done' ++ (c.conflicts ++ conflicts)).Perm c.open :=
      hmoved.trans (hperm.append_left _)
    rw [append_assoc]
    exact (hopen.append_left done).trans happlied.settled

/-! ## Reading a chunk -/

theorem not_deferred_of_conclusive {stored : Storage.ReadResult} (h : Conclusive stored.err) :
    isDeferred stored = false := by
  unfold isDeferred
  cases herr : stored.err with
  | none => rfl
  | some e => exact h e herr

/-- The first record of a chunk is not deferred. -/
theorem readOne_not_deferred (store : Memory.Store) (g : WriteGroup) {st : ReserveState}
    (hfresh : (st.cells (callerCount x.budgets)).remaining =
      (st.cells (callerCount x.budgets)).maximum)
    (hlease : ∀ answer ∈ st.lease, Conclusive answer) :
    isDeferred (store.readOne (x.snapshotRead g) st).1 = false := by
  refine not_deferred_of_conclusive ?_
  unfold Memory.Store.readOne
  cases store.records (x.snapshotRead g).address with
  | none => exact conclusive_none
  | some record =>
    have hbudget : Conclusive ((x.snapshotRead g).budget.reserve record.document.size st).1 :=
      snapshotBudget_conclusive _ x.managed hfresh hlease
    dsimp only
    cases hreserve : (x.snapshotRead g).budget.reserve record.document.size st with
    | mk err st' =>
      rw [hreserve] at hbudget
      cases err with
      | none => exact conclusive_none
      | some e => exact hbudget

theorem readWriteSnapshots_ensures (g : WriteGroup) (gs : List WriteGroup) :
    Ensures (fun results _ w' =>
        w.Goes w' [.read ((g :: gs).map x.snapshotRead)] [] ∧
        ∃ first rest, results = first :: rest ∧ rest.length = gs.length ∧
          isDeferred first = false) (x.readWriteSnapshots (g :: gs)) s w := by
  refine ensures_get_seq ?_
  generalize hcells : Function.update s.attempt.cells (callerCount x.budgets)
    (BudgetCell.new x.maxReadBytes) = cells
  let call : Call := .read ((g :: gs).map x.snapshotRead) cells
  refine ensures_seq (P := fun r _ w' => w' = w.see call ∧ ReadsAsMemory call r)
    (ensures_ask call fun r hr => ⟨rfl, hr⟩) ?_
  rintro response s₁ w₁ ⟨rfl, store, lease, hlease, rfl⟩
  refine ensures_set_seq ?_
  dsimp only
  split
  · trivial
  rename_i hlen
  have hgoes : w.Goes (w.see call) [.read ((g :: gs).map x.snapshotRead)] [] :=
    ⟨rfl, (append_nil _).symm, Subset.refl _⟩
  have hread : (store.read ((g :: gs).map x.snapshotRead) ⟨cells, lease⟩).1 =
      (store.readOne (x.snapshotRead g) ⟨cells, lease⟩).1 ::
        (store.read (gs.map x.snapshotRead)
          (store.readOne (x.snapshotRead g) ⟨cells, lease⟩).2).1 := rfl
  refine ⟨hgoes, _, _, hread, ?_, ?_⟩
  · rw [hread] at hlen
    simpa only [length_cons, ne_eq, not_not, Nat.add_right_cancel_iff] using hlen
  · refine x.readOne_not_deferred store g ?_ hlease
    simp [← hcells, BudgetCell.new]

/-- The steps of a round: read its batch, evaluate what is settled. -/
def roundSteps (c : Round WriteGroup) : List AttemptStep :=
  .read (c.batch.map x.snapshotRead) :: c.settled.map fun g => .evaluate g.address

structure ChunkDone (w w' : AttemptTrace) (c : Round WriteGroup)
    (conflicts done : List WriteGroup) : Prop where
  some : c.settled ≠ []
  split : (c.settled ++ c.back).Perm c.batch
  goes : w.Goes w' (x.roundSteps c) done
  once : (done ++ conflicts).Perm c.settled

theorem executeChunk_ensures (g : WriteGroup) (gs : List WriteGroup) :
    Ensures (fun outcome _ w' => ∃ settled done,
        x.ChunkDone w w' ⟨g :: gs, settled, outcome.2⟩ outcome.1 done)
      (x.executeChunk (g :: gs)) s w := by
  refine ensures_seq (x.readWriteSnapshots_ensures g gs) ?_
  rintro results s₁ w₁ ⟨hread, first, rest, rfl, hlen, hfirst⟩
  refine ensures_set_seq (ensures_mono (x.applyWriteSnapshots_ensures _) ?_)
  rintro outcome s₂ w₂ ⟨hdeferred, done, hgoes, hperm⟩
  have hbatch : ((g :: gs).zip (first :: rest)).map Prod.fst = g :: gs :=
    map_fst_zip (by simp [hlen])
  refine ⟨evaluatedGroups ((g :: gs).zip (first :: rest)), done, ?_, ?_, ?_, hperm⟩
  · simp [evaluatedGroups, hfirst]
  · have hsplit := (filter_append_perm (fun p => !isDeferred p.2)
      ((g :: gs).zip (first :: rest))).map Prod.fst
    rw [hbatch, map_append] at hsplit
    simpa only [hdeferred, evaluatedGroups, deferredGroups, Bool.not_not] using hsplit
  · exact hread.trans hgoes

/-! ## The attempt -/

theorem failGroups_ensures (f : WriteResult → WriteResult) (groups : List WriteGroup) :
    Ensures (fun _ _ w' => w.Goes w' [] groups ∧
        ∀ g ∈ groups, ∀ op ∈ g.operations, ∃ r, (op.index, f r) ∈ w'.completed)
      (x.failGroups f groups) s w := by
  induction groups generalizing s w with
  | nil => exact ⟨.refl w, by simp⟩
  | cons g gs ih =>
    refine ensures_set_seq (ensures_seq (x.complete_ensures g) ?_)
    rintro _ s₁ w₁ ⟨hgoes, hresults⟩
    refine ensures_mono ih ?_
    rintro _ s₂ w₂ ⟨hgoes', hrest⟩
    refine ⟨hgoes.trans hgoes', fun g' hg' op hop => ?_⟩
    rcases mem_cons.mp hg' with rfl | hg'
    · obtain ⟨r, hr⟩ := updateEach_visited (g := f) hop s.results
      exact ⟨r, hgoes'.kept (hr ▸ hresults op hop)⟩
    · exact hrest g' hg' op hop

/-- The operations of the groups were answered that capacity is exhausted. -/
def Exhausted (groups : List WriteGroup) (w : AttemptTrace) : Prop :=
  ∃ err, ∀ g ∈ groups, ∀ op ∈ g.operations,
    ∃ r, (op.index, exhaustedResult err r) ∈ w.completed

/-- The pending groups were worked off in rounds, with these conflicts; only a
refused reservation leaves some of them unread. -/
structure Worked (w w' : AttemptTrace) (pending conflicts : List WriteGroup)
    (rounds : List (Round WriteGroup)) (unread done : List WriteGroup) : Prop where
  goes : w.Goes w' (rounds.flatMap x.roundSteps) done
  shape : Rounds pending rounds unread
  once : (done ++ conflicts).Perm pending
  answered : Exhausted unread w'

variable {x}

theorem Worked.nil (w : AttemptTrace) : x.Worked w w [] [] [] [] [] :=
  ⟨.refl w, .nil [], .refl _, .text [], by simp⟩

variable {c : Round WriteGroup}

theorem ChunkDone.worked {conflicts conflicts' done done' rest unread rounds}
    (hc : x.ChunkDone w w₁ c conflicts done)
    (h : x.Worked w₁ w₂ (c.back ++ rest) conflicts' rounds unread done') :
    x.Worked w w₂ (c.batch ++ rest) (conflicts ++ conflicts') (c :: rounds) unread
      (done ++ done') where
  goes := hc.goes.trans h.goes
  shape := .cons hc.some hc.split h.shape
  once := by
    have hswap : (done ++ done' ++ (conflicts ++ conflicts')).Perm
        ((done ++ conflicts) ++ (done' ++ conflicts')) := by
      simp only [append_assoc]
      refine Perm.append_left done ?_
      rw [← append_assoc, ← append_assoc]
      exact perm_append_comm.append_right conflicts'
    exact (hswap.trans (hc.once.append h.once)).trans (Rounds.pending_perm hc.split rest)
  answered := h.answered

/-- A round settles a group, so fewer groups are pending after it. -/
theorem ChunkDone.length_lt {w w' conflicts done}
    (hc : x.ChunkDone w w' c conflicts done) : c.back.length < c.batch.length := by
  have hlength := hc.split.length_eq
  have hpos : 0 < c.settled.length := length_pos_iff.mpr hc.some
  rw [length_append] at hlength
  omega

variable (x)

theorem attemptLoop_ensures (fuel : Nat) {pending : List WriteGroup} {limit : Nat}
    (hfuel : pending.length ≤ fuel) (hlimit : pending ≠ [] → 1 ≤ limit)
    (next : List WriteGroup) :
    Ensures (fun next' _ w' => ∃ conflicts rounds unread done, next' = next ++ conflicts ∧
        x.Worked w w' pending conflicts rounds unread done)
      (x.attemptLoop fuel pending limit next) s w := by
  induction fuel generalizing pending limit next s w with
  | zero =>
    obtain rfl : pending = [] := length_eq_zero_iff.mp (Nat.le_zero.mp hfuel)
    exact ⟨[], [], [], [], (append_nil _).symm, .nil w⟩
  | succ fuel ih =>
    cases pending with
    | nil => exact ⟨[], [], [], [], (append_nil _).symm, .nil w⟩
    | cons g gs =>
      refine ensures_frame_seq (holds_frames (contextError_holds attemptWorld_unseen)) ?_
      intro _ s₁ _
      refine ensures_frame_seq (x.resize_frames attemptWorld_unseen _) fun err s₂ _ => ?_
      cases err with
      | some e =>
        refine ensures_seq (x.failGroups_ensures (exhaustedResult e) (g :: gs)) ?_
        rintro _ s₃ w₃ ⟨hgoes, hresults⟩
        exact ⟨[], [], g :: gs, g :: gs, (append_nil _).symm, hgoes, .nil _,
          by rw [append_nil], e, hresults⟩
      | none =>
        have hpos : 1 ≤ limit := hlimit (cons_ne_nil g gs)
        obtain ⟨k, hk⟩ : ∃ k, min limit (gs.length + 1) = k + 1 :=
          Nat.exists_eq_succ_of_ne_zero (by omega)
        simp only [hk, take_succ_cons, drop_succ_cons]
        refine ensures_seq (x.executeChunk_ensures g (gs.take k)) ?_
        rintro outcome s₃ w₃ ⟨settled, done, hc⟩
        have hall : g :: gs = (g :: gs.take k) ++ gs.drop k := by
          rw [cons_append, take_append_drop]
        have hfuel' : (outcome.2 ++ gs.drop k).length ≤ fuel := by
          have hless : outcome.2.length < (g :: gs.take k).length := hc.length_lt
          have hlength := congrArg length hall
          rw [length_append] at hlength ⊢
          omega
        -- whatever the limit of the next chunk is
        have hround : ∀ limit', 1 ≤ limit' → Ensures (fun next' _ w' =>
            ∃ conflicts rounds unread done, next' = next ++ conflicts ∧
              x.Worked w w' (g :: gs) conflicts rounds unread done)
            (x.attemptLoop fuel (outcome.2 ++ gs.drop k) limit' (next ++ outcome.1))
            s₃ w₃ := by
          intro limit' hlimit'
          refine ensures_mono (ih hfuel' (fun _ => hlimit') _) ?_
          rintro next' s₄ w₄ ⟨conflicts, rounds, unread, done', rfl, hworked⟩
          rw [hall]
          exact ⟨_, _, unread, _, append_assoc .., hc.worked hworked⟩
        split
        · rename_i hempty
          have hnone : outcome.2 = [] := isEmpty_iff.mp hempty
          rw [hnone, nil_append] at hround
          exact hround limit hpos
        · exact hround _ (Nat.le_max_left 1 _)

/-- What an attempt that returns without an error did to its groups. -/
structure Settles (groups next : List WriteGroup) (w : AttemptTrace)
    (rounds : List (Round WriteGroup)) (unread done : List WriteGroup) : Prop where
  /-- The chunks that were read, and the groups that were evaluated in each. -/
  steps : w.steps = rounds.flatMap x.roundSteps
  completed : w.completed.map Prod.fst = done.flatMap (·.indexes)
  /-- Each group is completed or returned, once. -/
  once : (done ++ next).Perm groups
  /-- Each chunk evaluates a group; the groups it does not evaluate are deferred. -/
  progress : ∀ c ∈ rounds, c.settled ≠ [] ∧ (c.settled ++ c.back).Perm c.batch
  /-- A chunk reads no group that was evaluated before. -/
  fresh : ∀ before c after, rounds = before ++ c :: after →
    ∃ later, (before.flatMap (·.settled) ++ c.batch ++ later).Perm groups
  /-- Deferred groups are read again in a later chunk, or remain unread. -/
  deferred : ∀ before c after, rounds = before ++ c :: after →
    c.back.Subperm (after.flatMap (·.batch) ++ unread)
  /-- Groups that remain unread are answered that capacity is exhausted. -/
  unread : Exhausted unread w

/-- An attempt ends, and settles each of its groups once. -/
theorem executeWriteAttempt_settles (groups : List WriteGroup) (fuel : Nat)
    (hfuel : groups.length ≤ fuel) (s : ExecState) :
    Exec.wp attemptWorld (fun r _ w => ∀ next, r = .ok next →
        ∃ rounds unread done, x.Settles groups next w rounds unread done)
      (x.executeWriteAttempt fuel groups) s .empty := by
  have hlimit : groups ≠ [] → 1 ≤ groups.length := fun h => length_pos_iff.mpr h
  refine wp_mono ?_ (ensures_set_seq (x.attemptLoop_ensures fuel hfuel hlimit []))
  intro r s' w hr next heq
  subst heq
  obtain ⟨conflicts, rounds, unread, done, rfl, h⟩ := hr
  exact ⟨rounds, unread, done, h.goes.steps, h.goes.completed, h.once, h.shape.split,
    h.shape.batch_fresh, h.shape.back_subperm, h.answered⟩

/-! ## A deferred group whose memory is gone

Two callers merge one record each; a chunk has room for one of them. The write
of the first group returns memory that another request takes, so the second
group cannot be read again. -/

/-- Replace the record by the incoming document. -/
def replaceMerge (index : Nat) (address : Address) : WriteGroup :=
  .single ⟨index, address, false, .merge ⟨⟨.json, [7]⟩, fun _ _ incoming => .ok incoming⟩⟩

def twoCallers : WriteExecution where
  maxReadBytes := 140
  maxMergeAttempts := 1
  budgets := some ⟨[0, 1], 2, [none, none], [false, false]⟩
  waitUntilVisible := false
  managed := false
  estimate := ⟨6000, 5000⟩

/-- Every record has five bytes, every write is applied, and the pool is full. -/
def crowdedAnswer : (c : Call) → Reply c
  | .read operations cells =>
    let store : Memory.Store := ⟨fun _ => some ⟨⟨.json, [1, 2, 3, 4, 5]⟩, [1]⟩, 1⟩
    (.ok (store.read operations ⟨cells, []⟩).1, (store.read operations ⟨cells, []⟩).2.cells)
  | .write operations _ => .ok (operations.map fun _ => ⟨.applied, [2], none⟩)
  | .lockPool => ⟨10, 6000, 1, 6000, 1, 6000, 0, 0, []⟩
  | c => (MemoryWorld.handle ⟨.empty, 0, 0⟩ c).1

def crowded (w : AttemptTrace) (c : Call) : Reply c × AttemptTrace := (crowdedAnswer c, w.see c)

theorem crowded_reads (w : AttemptTrace) (c : Call) :
    attemptWorld.answer w c (crowded w c).1 (crowded w c).2 := by
  refine ⟨rfl, ?_⟩
  cases c with
  | read operations cells => exact ⟨_, [], by simp, rfl⟩
  | _ => trivial

/-- An attempt that returns without an error, in which the second group is
deferred and not read again. -/
theorem executeWriteAttempt_unread :
    let a := replaceMerge 0 ⟨[97]⟩
    let b := replaceMerge 1 ⟨[98]⟩
    let s : ExecState := ⟨.new, none, .granted 6000, twoCallers.freshAttempt⟩
    ∃ s' w,
      Exec.Runs attemptWorld (twoCallers.executeWriteAttempt 2 [a, b]) s .empty (.ok []) s' w ∧
      w.steps = [.read [twoCallers.snapshotRead a, twoCallers.snapshotRead b],
        .evaluate a.address] ∧
      w.completed.map (fun p => (p.1, p.2.status)) = [(0, .applied), (1, .failed)] := by
  intro a b s
  have hlast : (Exec.run crowded (twoCallers.executeWriteAttempt 2 [a, b]) s .empty).map
      (fun r : Fallible (List WriteGroup) × ExecState × AttemptTrace =>
        (r.1.toOption.map length, r.2.2.steps, r.2.2.completed.map fun p => (p.1, p.2.status))) =
      some (some 0, [.read [twoCallers.snapshotRead a, twoCallers.snapshotRead b],
        .evaluate a.address], [(0, .applied), (1, .failed)]) := by decide +kernel
  obtain ⟨⟨r, s', w⟩, hrun, heq⟩ := Option.map_eq_some_iff.mp hlast
  simp only [Prod.mk.injEq] at heq
  obtain ⟨hok, hsteps, hcompleted⟩ := heq
  have hr : r = .ok [] := by
    cases r with
    | error e => cases hok
    | ok next =>
      have hlength : next.length = 0 := by simpa [Except.toOption] using hok
      rw [length_eq_zero_iff.mp hlength]
  subst hr
  exact ⟨s', w, runs_of_admitted crowded_reads hrun, hsteps, hcompleted⟩

/-- The same two groups are settled in any run. -/
theorem executeWriteAttempt_settles_two :
    let groups := [replaceMerge 0 ⟨[97]⟩, replaceMerge 1 ⟨[98]⟩]
    let s : ExecState := ⟨.new, none, .granted 6000, twoCallers.freshAttempt⟩
    Exec.wp attemptWorld (fun r _ w => ∀ next, r = .ok next →
        ∃ rounds unread done, twoCallers.Settles groups next w rounds unread done)
      (twoCallers.executeWriteAttempt 2 groups) s .empty := by
  intro groups s
  exact twoCallers.executeWriteAttempt_settles groups 2 (by decide) s

end WriteExecution

end Sink
