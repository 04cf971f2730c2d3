import Sink.ChainProtocol

/-!
# The executor follows the chain protocol

One group is in focus; all other groups of the execution are apart from it.
Each function of the executor gets one lemma that says how it moves the
focused group through the phases of `Sink.ChainProtocol`, whatever the
storage, the context and the memory pools answer. Work on the other groups
is skipped with the footprint lemmas.
-/

namespace Sink

open Interact Interact.Exec List

variable {g : WriteGroup} {r r' : Results} {e : ChainEvent} {reply : Storage.WriteResult}
  {err : GoError}

/-! ## Evaluations keep results clean -/

theorem foldOperations_clean (ctx : Nat → Bool) (ops : List ParsedWrite) {st : FoldState}
    {i : Nat} (h : (st.results i).Clean) : ((foldOperations ctx ops st).results i).Clean :=
  foldOperations_results ctx (fun result op current =>
    (result.record_evaluated (ctx op.index) op current).1) (.inr h)

variable {stored : Storage.WriteResult} {result : WriteResult}

theorem applyWriteResult_clean (hstored : stored.status ≠ .applied) (h : result.Clean) :
    (applyWriteResult result stored).Clean := by
  unfold applyWriteResult
  split
  · exact absurd ‹_› hstored
  all_goals exact h

theorem applyGroupResult_clean (hstored : stored.status ≠ .applied) (h : result.Clean) :
    (applyGroupResult stored result).Clean := by
  rw [applyGroupResult_of_ne_applied hstored]
  exact applyWriteResult_clean hstored ⟨h.1, rfl⟩

theorem prepareRuns_clean (ctx : Nat → Bool) (runs : List (Nat × List ParsedWrite))
    (st : BatchedState) {i : Nat} (h : (st.results i).Clean) :
    ((prepareRuns ctx runs st).2.results i).Clean :=
  prepareRuns_preserves (fun part _ h => foldOperations_clean ctx part h)
    (fun _ _ _ => applyGroupResult_clean (by simp [Storage.WriteResult.ofError])) runs st h

variable {stored : Storage.ReadResult} {before after : Results} {x : WriteExecution}
  {ctx : Nat → Bool}

theorem WriteExecution.Evaluates.clean {candidate : Option Storage.WriteOperation}
    (h : x.Evaluates g ctx stored before candidate after) (hclean : CleanOn g before) :
    CleanOn g after := by
  intro op hop
  unfold WriteExecution.Evaluates at h
  split at h
  · obtain ⟨-, rfl⟩ := Prod.mk.inj h
    exact foldOperations_clean ctx _ (hclean op hop)
  · obtain ⟨inputs, outputs, -, rfl⟩ := h
    exact prepareRuns_clean ctx _ _ (hclean op hop)

theorem WriteExecution.Evaluates.address {w : Storage.WriteOperation}
    (h : x.Evaluates g ctx stored before (some w) after) : w.address = g.address := by
  unfold WriteExecution.Evaluates at h
  split at h
  · exact WriteExecution.prepareWriteGroup_address ctx g (congrArg Prod.fst h)
  · obtain ⟨inputs, outputs, hc, -⟩ := h
    exact WriteExecution.prepareBatchedWriteGroup_address ctx _ g hc

/-! ## Phases are local -/

theorem Agree.refl (g : WriteGroup) (r : Results) : Agree g r r := fun _ _ => rfl

theorem Agree.trans {r'' : Results} (h : Agree g r r') (h' : Agree g r' r'') :
    Agree g r r'' := fun op hop => (h op hop).trans (h' op hop)

theorem Agree.publication (h : Agree g r r') : publication g r = publication g r' := by
  unfold Sink.publication
  rw [map_congr_left fun op hop => by rw [h op hop]]

theorem Agree.updateEach (h : Agree g r r') (f : ParsedWrite → WriteResult → WriteResult) :
    Agree g (updateEach (·.index) f g.operations r) (updateEach (·.index) f g.operations r') :=
  fun op hop => updateEach_congr g.operations (h op hop)

theorem CleanOn.agree (h : CleanOn g r) (ha : Agree g r' r) :
    CleanOn g r' := fun op hop => ha op hop ▸ h op hop

/-- A condition on the focused group only. -/
def Local (g : WriteGroup) (ph : Results → History → Prop) : Prop :=
  ∀ (r r' : Results) (es : History), Agree g r' r → ph r es → ph r' es

section Phases

variable {x : WriteExecution} {g : WriteGroup} {start : History}
variable {es : History} {n : Nat} {r : Results} {w : Storage.WriteOperation}

theorem pending_local (n : Nat) : Local g (Pending x g start n) :=
  fun _ _ _ ha h => ⟨h.1, h.2.agree ha⟩

theorem settled_local : Local g (Settled x g start) :=
  fun _ _ _ ha ⟨es', r', hs, hr, he⟩ => ⟨es', r', hs, ha.trans hr, he⟩

theorem ready_local (n : Nat) (w : Storage.WriteOperation) : Local g (Ready x g start n w) :=
  fun _ _ _ ha ⟨ctx, stored, es', before, after, he, hat, hc, hev, hr⟩ =>
    ⟨ctx, stored, es', before, after, he, hat, hc, hev, ha.trans hr⟩

theorem Unpublished.refl : Unpublished start start := ⟨[], rfl, by simp⟩

theorem Unpublished.cons (h : Unpublished start es) (he : ∀ results, e ≠ .published results) :
    Unpublished start (e :: es) := by
  obtain ⟨t, rfl, ht⟩ := h
  refine ⟨e :: t, rfl, forall_mem_cons.mpr ⟨he, ht⟩⟩

theorem Attempts.unpublished (h : Attempts x g start n es) : Unpublished start es := by
  induction h with
  | start => exact .refl
  | deferred _ _ ih => exact ih.cons (by simp)
  | conflict _ _ _ _ ih => exact ((ih.cons (by simp)).cons (by simp)).cons (by simp)

theorem Pending.interrupted (h : Pending x g start n r es) :
    Interrupted x g start r es := .inr h.1.unpublished

theorem Ready.unpublished (h : Ready x g start n w r es) : Unpublished start es := by
  obtain ⟨ctx, stored, es', before, after, rfl, hat, -⟩ := h
  exact (hat.unpublished.cons (by simp)).cons (by simp)

theorem Ready.proposes (h : Ready x g start n w r es) : Proposes x g start es w := by
  obtain ⟨ctx, stored, es', before, after, rfl, hat, hclean, hev, -⟩ := h
  exact .evaluated hat hclean hev

theorem Ready.address (h : Ready x g start n w r es) : w.address = g.address := by
  obtain ⟨ctx, stored, es', before, after, -, -, -, hev, -⟩ := h
  exact hev.address

theorem Settlement.settled {r' : Results} (h : Settlement x g start es r') (ha : Agree g r r') :
    Settled x g start r (publication g r :: es) :=
  ⟨es, r', h, ha, congrArg (· :: es) ha.publication⟩

def Answered (x : WriteExecution) (g : WriteGroup) (start : History) (n : Nat)
    (w : Storage.WriteOperation) (reply : Storage.WriteResult) (r : Results)
    (es : History) : Prop :=
  ∃ es', es = .wrote w reply :: es' ∧ Ready x g start n w r es'

theorem answered_local (n : Nat) (w : Storage.WriteOperation) (reply : Storage.WriteResult) :
    Local g (Answered x g start n w reply) :=
  fun _ _ _ ha ⟨es', he, hr⟩ => ⟨es', he, ready_local n w _ _ _ ha hr⟩

theorem Answered.unpublished (h : Answered x g start n w reply r es) : Unpublished start es := by
  obtain ⟨es', rfl, hready⟩ := h
  exact hready.unpublished.cons (by simp)

theorem Answered.pending (h : Answered x g start n w reply r es)
    (hreply : reply.status = .preconditionFailed) : Pending x g start (n + 1) r es := by
  obtain ⟨es₁, rfl, ctx, stored, es', before, after, rfl, hat, hclean, hev, hr⟩ := h
  exact ⟨.conflict hat hclean hev hreply, (hev.clean hclean).agree hr⟩

theorem Answered.settles (hn : n < x.maxMergeAttempts) (h : Answered x g start n w reply r es)
    (hreply : reply.status ≠ .preconditionFailed) :
    Settled x g start
      (attachWriteDocument g.operations (applyWriteGroupResult g.operations r reply) w.document)
      (publication g (attachWriteDocument g.operations
        (applyWriteGroupResult g.operations r reply) w.document) :: es) := by
  obtain ⟨es₁, rfl, ctx, stored, es', before, after, rfl, hat, hclean, hev, hr⟩ := h
  have hagree := (hr.updateEach fun _ => applyGroupResult reply).updateEach
    fun op => attachDocument op.returnDocument w.document
  exact (Settlement.answered hat hn hclean hev hreply).settled hagree

theorem Ready.refused (hn : n < x.maxMergeAttempts) (h : Ready x g start n w r es)
    (herr : err.errorDetails.1 = .resourceExhausted) :
    Settled x g start (applyWriteGroupResult g.operations r (.ofError err))
      (publication g (applyWriteGroupResult g.operations r (.ofError err)) :: es) := by
  obtain ⟨ctx, stored, es', before, after, rfl, hat, hclean, hev, hr⟩ := h
  have hagree := hr.updateEach fun _ => applyGroupResult (.ofError err)
  exact (Settlement.refused hat hn hclean hev herr).settled hagree

end Phases

/-! ## The focused world -/

/-- A storage write that leaves the focused record alone, or writes it once
and as proposed. -/
def WritesAsProposed (x : WriteExecution) (g : WriteGroup) (start : History) (f : Focus)
    (es : History) (ops : List Storage.WriteOperation) : Prop :=
  (∀ op ∈ ops, op.address ≠ f.address) ∨
    ∃ op, op.address = f.address ∧ Proposes x g start es op ∧
      Once (fun o => o = op) (fun o => o.address ≠ f.address) ops

/-- The group can be published with these results. -/
def Concludes (x : WriteExecution) (g : WriteGroup) (start : History) (r : Results)
    (es : History) : Prop :=
  ∃ r', Concluded x g start es r' ∧ Agree g r r'

/-- Results handed out for other operations, or for the concluded group. -/
def PublishesAsConcluded (x : WriteExecution) (g : WriteGroup) (start : History)
    (f : Focus) (es : History) (results : List (Nat × WriteResult)) : Prop :=
  (∀ p ∈ results, p.1 ∉ f.indexes) ∨
    ∃ r, Concluded x g start es r ∧ results = g.operations.map fun op => (op.index, r op.index)

/-- What the executor keeps to at each call, as far as the focus goes. -/
def Conforms (x : WriteExecution) (g : WriteGroup) (start : History) (f : Focus)
    (es : History) : Call → Prop
  | .write ops _ => WritesAsProposed x g start f es ops
  | .complete results => PublishesAsConcluded x g start f es results
  | _ => True

/-- What the rest of the proof assumes of the obligation on issued calls:
it asks for no more than conforming calls. -/
def Permits (x : WriteExecution) (g : WriteGroup) (start : History) (f : Focus)
    (spec : History → Call → Prop) : Prop :=
  ∀ es c, Conforms x g start f es c → spec es c

section Focused

variable {x : WriteExecution} {g : WriteGroup} {start : History} {f : Focus}
  {spec : History → Call → Prop}
variable {ph : Results → History → Prop} {s : ExecState} {es : History}
  {r : Results} {w : Storage.WriteOperation} {candidates : List Candidate} {n : Nat}
  {c : WriteExecution.Chunk} {g' : WriteGroup} {stored : Storage.ReadResult}
  {snapshots : List (WriteGroup × Storage.ReadResult)} {groups next gs : List WriteGroup} {α : Type}

/-- A candidate of another group. -/
def ApartCandidate (f : Focus) (c : Candidate) : Prop :=
  f.Apart c.1 ∧ c.2.address = c.1.address

variable {P : α → Prop}

theorem forall_append {l l' : List α} (h : ∀ a ∈ l, P a) (h' : ∀ a ∈ l', P a) :
    ∀ a ∈ l ++ l', P a :=
  forall_mem_append.mpr ⟨h, h'⟩

theorem find_apart {l : List α} (address : α → Address) (h : ∀ a ∈ l, address a ≠ f.address) :
    (l.find? fun a => decide (address a = f.address)) = none := by
  rw [find?_eq_none]
  intro a ha
  simpa using h a ha

theorem unseen_of_apart (hspec : Permits x g start f spec) (hgs : f.Avoids gs) :
    Unseen (observer f.record spec) gs := by
  have haddr : ∀ {a : Address}, (∃ g' ∈ gs, g'.address = a) → a ≠ f.address := by
    rintro a ⟨g', hg', rfl⟩
    exact (hgs g' hg').1
  intro c hc es
  constructor
  · refine hspec es c ?_
    cases c with
    | write ops visible => exact .inl fun op hop => haddr (hc op hop)
    | complete results =>
      refine .inl fun p hp => ?_
      obtain ⟨g', hg', op, hop, hindex⟩ := hc p hp
      exact hindex ▸ (hgs g' hg').2 op hop
    | _ => trivial
  · rintro r es' rfl
    cases c with
    | evaluate address => exact if_neg (haddr hc)
    | read ops cells =>
      obtain ⟨results, cells'⟩ := r
      cases results with
      | error e => rfl
      | ok results =>
        simp only [Focus.record]
        rw [find_apart (fun p : ReadOperation × Storage.ReadResult => p.1.address)
          fun p hp => haddr (hc p.1 (of_mem_zip (a := p.1) (b := p.2) hp).1)]
    | write ops visible =>
      simp only [Focus.record]
      rw [find_apart (·.address) fun op hop => haddr (hc op hop)]
    | complete results =>
      simp only [Focus.record]
      rw [if_neg]
      simp only [any_eq_true, decide_eq_true_eq, not_exists, not_and]
      intro p hp
      obtain ⟨g', hg', op, hop, hindex⟩ := hc p hp
      exact hindex ▸ (hgs g' hg').2 op hop
    | _ => rfl

variable {y : ServerM α}

/-- Work on other groups leaves the focused group in its phase. -/
theorem wp_skip (hf : f.Holds g) (hph : Local g ph) (hgs : f.Avoids gs)
    (hy : Frames (observer f.record spec) gs y P) (h : ph s.results es) :
    wp (observer f.record spec) (fun r s' es' => ph s'.results es' ∧ Ends P (fun _ => True) r)
      y s es := by
  refine wp_mono ?_ (hy s es)
  rintro r s' es' ⟨rfl, hframe, hr⟩
  refine ⟨hph _ _ _ (fun op hop => ?_) h, hr⟩
  exact hframe.results op.index fun g' hg' o ho hi =>
    (hgs g' hg').2 o ho (hi ▸ hf.indexes op hop)

/-- A step that touches no result and is not watched. -/
theorem wp_quiet (hspec : Permits x g start f spec)
    (hy : Unseen (observer f.record spec) [] → Frames (observer f.record spec) [] y P)
    {Q} (hok : ∀ a s', P a → s'.results = s.results → Q (.ok a) s' es)
    (herr : ∀ e s', s'.results = s.results → Q (.error e) s' es) :
    wp (observer f.record spec) Q y s es := by
  refine wp_mono ?_ (hy (unseen_of_apart hspec nofun) s es)
  rintro r s' es' ⟨rfl, hframe, hr⟩
  have hs' : s'.results = s.results := funext fun i => hframe.results i (by simp)
  cases r with
  | ok a => exact hok a s' hr hs'
  | error e => exact herr e s' hs'

/-! ## Where the focused group is -/

theorem Settled.concludes (h : Settled x g start r (e :: es)) : Concludes x g start r es := by
  obtain ⟨es', r', hset, hr, he⟩ := h
  obtain ⟨-, rfl⟩ := cons.inj he
  exact ⟨r', .conditional hset, hr⟩

abbrev OneCandidate (g : WriteGroup) (f : Focus) (w : Storage.WriteOperation)
    (candidates : List Candidate) : Prop :=
  Once (fun c => c = (g, w)) (ApartCandidate f) candidates

theorem OneCandidate.operations (h : OneCandidate g f w candidates) :
    Once (fun op => op = w) (fun op => op.address ≠ f.address) (candidates.map (·.2)) :=
  h.map (by rintro c rfl; rfl) fun _ hc => hc.2 ▸ hc.1.1

abbrev OneGroup (g : WriteGroup) (f : Focus) (groups : List WriteGroup) : Prop :=
  Once (fun g' => g' = g) f.Apart groups

/-- What a commit makes of a group that lost `n` commits before. -/
def Committed (x : WriteExecution) (g : WriteGroup) (start : History) (f : Focus)
    (n : Nat) (next : List WriteGroup) (r : Results) (es : History) : Prop :=
  (OneGroup g f next ∧ Pending x g start (n + 1) r es) ∨
    (f.Avoids next ∧ Settled x g start r es)

/-- The condition on both exits of a step. -/
def Exits {α : Type} (x : WriteExecution) (g : WriteGroup) (start : History)
    (P : α → Results → History → Prop) (r : Fallible α) (s : ExecState)
    (es : History) : Prop :=
  Ends (fun a => P a s.results es) (fun _ => Interrupted x g start s.results es) r

/-- What charging a candidate makes of its group. -/
def Admitted (x : WriteExecution) (g : WriteGroup) (start : History) (n : Nat)
    (w : Storage.WriteOperation) (admitted : Bool) (r : Results) (es : History) : Prop :=
  (admitted = true ∧ Ready x g start n w r es) ∨ (admitted = false ∧ Settled x g start r es)

/-- The chunk holds only other groups. -/
structure Outside (f : Focus) (c : WriteExecution.Chunk) : Prop where
  conflicts : f.Avoids c.conflicts
  deferred : f.Avoids c.deferred
  candidates : ∀ d ∈ c.candidates, ApartCandidate f d

/-- Where the focused group is once the chunk has reached it. -/
inductive Located (x : WriteExecution) (g : WriteGroup) (start : History) (f : Focus)
    (n : Nat) (c : WriteExecution.Chunk) (r : Results) (es : History) : Prop where
  | settled (hout : Outside f c) (h : Settled x g start r es)
  | conflict (hone : OneGroup g f c.conflicts) (hdef : f.Avoids c.deferred)
      (hcand : ∀ d ∈ c.candidates, ApartCandidate f d) (h : Pending x g start (n + 1) r es)
  | deferred (hconf : f.Avoids c.conflicts) (hone : OneGroup g f c.deferred)
      (hcand : ∀ d ∈ c.candidates, ApartCandidate f d) (h : Pending x g start n r es)
  | candidate {w : Storage.WriteOperation} (hconf : f.Avoids c.conflicts)
      (hdef : f.Avoids c.deferred) (hone : OneCandidate g f w c.candidates)
      (h : Ready x g start n w r es)

theorem Located.interrupted (h : Located x g start f n c r es) : Interrupted x g start r es := by
  cases h with
  | settled _ h => exact .inl h
  | conflict _ _ _ h => exact h.interrupted
  | deferred _ _ _ h => exact h.interrupted
  | candidate _ _ _ h => exact .inr h.unpublished

theorem located_local (n : Nat) (c : WriteExecution.Chunk) : Local g (Located x g start f n c) := by
  intro r r' es ha h
  cases h with
  | settled hout h => exact .settled hout (settled_local _ _ _ ha h)
  | conflict hone hdef hcand h => exact .conflict hone hdef hcand (pending_local _ _ _ _ ha h)
  | deferred hconf hone hcand h => exact .deferred hconf hone hcand (pending_local _ _ _ _ ha h)
  | candidate hconf hdef hone h => exact .candidate hconf hdef hone (ready_local _ _ _ _ _ ha h)

theorem Located.push (h : Located x g start f n c r es) {d : Candidate} (hd : ApartCandidate f d)
    (bytes : Int) : Located x g start f n
      { c with candidates := c.candidates ++ [d], outputBytes := bytes } r es := by
  have hlast : ∀ d' ∈ [d], ApartCandidate f d' := by simpa using hd
  cases h with
  | settled hout h =>
    exact .settled ⟨hout.conflicts, hout.deferred, forall_append hout.candidates hlast⟩ h
  | conflict hone hdef hcand h => exact .conflict hone hdef (forall_append hcand hlast) h
  | deferred hconf hone hcand h => exact .deferred hconf hone (forall_append hcand hlast) h
  | candidate hconf hdef hone h => exact .candidate hconf hdef (hone.append_left hlast) h

theorem Located.defer (h : Located x g start f n c r es) (hg' : f.Apart g') :
    Located x g start f n { c with deferred := c.deferred ++ [g'] } r es := by
  have hlast : f.Avoids [g'] := forall_mem_singleton.mpr hg'
  cases h with
  | settled hout h =>
    exact .settled ⟨hout.conflicts, forall_append hout.deferred hlast, hout.candidates⟩ h
  | conflict hone hdef hcand h => exact .conflict hone (forall_append hdef hlast) hcand h
  | deferred hconf hone hcand h => exact .deferred hconf (hone.append_left hlast) hcand h
  | candidate hconf hdef hone h => exact .candidate hconf (forall_append hdef hlast) hone h

/-- The group's snapshot was just read. -/
def Fetched (x : WriteExecution) (g : WriteGroup) (start : History) (n : Nat)
    (stored : Storage.ReadResult) (r : Results) (es : History) : Prop :=
  ∃ es', es = .snapshot stored :: es' ∧ Pending x g start n r es'

theorem fetched_local (n : Nat) (stored : Storage.ReadResult) :
    Local g (Fetched x g start n stored) :=
  fun _ _ _ ha ⟨es', he, h⟩ => ⟨es', he, pending_local n _ _ _ ha h⟩

theorem Fetched.unpublished (h : Fetched x g start n stored r es) : Unpublished start es := by
  obtain ⟨es', rfl, hat, -⟩ := h
  exact hat.unpublished.cons (by simp)

/-- What one chunk makes of a pending group: it goes to the next attempt, to
a later chunk, or it is settled. -/
inductive Chunked (x : WriteExecution) (g : WriteGroup) (start : History) (f : Focus)
    (n : Nat) (outcome : List WriteGroup × List WriteGroup) (r : Results)
    (es : History) : Prop where
  | conflict (hone : OneGroup g f outcome.1) (hdef : f.Avoids outcome.2)
      (h : Pending x g start (n + 1) r es)
  | deferred (hconf : f.Avoids outcome.1) (hone : OneGroup g f outcome.2)
      (h : Pending x g start n r es)
  | settled (hconf : f.Avoids outcome.1) (hdef : f.Avoids outcome.2)
      (h : Settled x g start r es)

inductive Attempting (x : WriteExecution) (g : WriteGroup) (start : History) (f : Focus)
    (n : Nat) (pending next : List WriteGroup) (r : Results) (es : History) : Prop where
  | pending (hone : OneGroup g f pending) (hnext : f.Avoids next)
      (h : Pending x g start n r es)
  | conflict (hpending : f.Avoids pending) (hone : OneGroup g f next)
      (h : Pending x g start (n + 1) r es)
  | settled (hpending : f.Avoids pending) (hnext : f.Avoids next)
      (h : Settled x g start r es)

theorem Attempting.interrupted {pending : List WriteGroup}
    (h : Attempting x g start f n pending next r es) : Interrupted x g start r es := by
  cases h with
  | pending _ _ h => exact h.interrupted
  | conflict _ _ h => exact h.interrupted
  | settled _ _ h => exact .inl h

theorem Attempting.done (h : Attempting x g start f n [] next r es) :
    Committed x g start f n next r es := by
  cases h with
  | pending hone _ _ => cases hone
  | conflict _ hone h => exact .inl ⟨hone, h⟩
  | settled _ hnext h => exact .inr ⟨hnext, h⟩

/-! ## What the observer records -/

/-- What the observer makes of the answer to a write that contains the
focused candidate. -/
theorem record_write (hw : w.address = f.address) (hc : OneCandidate g f w candidates)
    (visible : Bool) (es : History) (reply : Fallible (List Storage.WriteResult)) :
    (∃ results stored, reply = .ok results ∧ results.length = candidates.length ∧
        f.record es (.write (candidates.map (·.2)) visible) reply = .wrote w stored :: es ∧
        Once (fun p => p.1 = (g, w) ∧ p.2 = stored) (fun p => ApartCandidate f p.1)
          (candidates.zip results)) ∨
      ((∀ results, reply = .ok results → results.length ≠ candidates.length) ∧
        f.record es (.write (candidates.map (·.2)) visible) reply = .lost w :: es) := by
  obtain ⟨op, rfl, hfind⟩ := hc.operations.find? (q := fun op => decide (op.address = f.address))
    (by rintro op rfl; simpa using hw) (by simp)
  cases reply with
  | error e =>
    refine .inr ⟨by simp, ?_⟩
    simp only [Focus.record, hfind]
  | ok results =>
    by_cases hlen : results.length = candidates.length
    · obtain ⟨stored, hzip⟩ := hc.zip hlen
      refine .inl ⟨results, stored, rfl, hlen, ?_, hzip⟩
      have hpairs : Once (fun p => p = (op, stored)) (fun p => p.1.address ≠ f.address)
          ((candidates.map (·.2)).zip results) := by
        rw [zip_map_left]
        refine hzip.map ?_ fun p hp => hp.2 ▸ hp.1.1
        rintro ⟨c, b⟩ ⟨rfl, rfl⟩
        rfl
      obtain ⟨p, rfl, hfind'⟩ := hpairs.find? (q := fun p => decide (p.1.address = f.address))
        (by rintro p rfl; simpa using hw) (by simp)
      simp only [Focus.record, hfind, length_map, hlen, ne_eq, not_true_eq_false, if_false, hfind']
    · refine .inr ⟨by rintro _ ⟨⟩; exact hlen, ?_⟩
      simp only [Focus.record, hfind, length_map, ne_eq, hlen, not_false_eq_true, if_true]

/-- What the observer makes of the answer to a read that contains the
focused record. -/
theorem record_read (hf : f.Holds g) (hone : OneGroup g f groups) (cells : Nat → BudgetCell)
    (es : History) (results : List Storage.ReadResult) (cells' : Nat → BudgetCell)
    (hlen : results.length = groups.length) :
    ∃ stored, f.record es (.read (groups.map x.snapshotRead) cells) (.ok results, cells') =
        .snapshot stored :: es ∧
      Once (fun p => p.1 = g ∧ p.2 = stored) (fun p => f.Apart p.1) (groups.zip results) := by
  obtain ⟨stored, hzip⟩ := hone.zip hlen
  refine ⟨stored, ?_, hzip⟩
  have hpairs : Once (fun p => p = (x.snapshotRead g, stored)) (fun p => p.1.address ≠ f.address)
      ((groups.map x.snapshotRead).zip results) := by
    rw [zip_map_left]
    refine hzip.map ?_ fun p hp => hp.1
    rintro ⟨g', b⟩ ⟨rfl, rfl⟩
    rfl
  obtain ⟨p, rfl, hfind⟩ := hpairs.find? (q := fun p => decide (p.1.address = f.address))
    (by rintro p rfl; exact decide_eq_true hf.address) (by simp)
  simp only [Focus.record, hfind]

theorem record_read_unpublished (h : Unpublished start es) (ops : List ReadOperation)
    (cells : Nat → BudgetCell)
    (reply : Fallible (List Storage.ReadResult) × (Nat → BudgetCell)) :
    Unpublished start (f.record es (.read ops cells) reply) := by
  simp only [Focus.record]
  split
  · exact h
  split
  · exact h
  · exact h.cons (by simp)

/-! ## Settling groups -/

section Steps

variable (hf : f.Holds g) (hspec : Permits x g start f spec)
include hf hspec

/-- Work on other groups that returns some of them. -/
theorem wp_apart (hph : Local g ph) (hgs : f.Avoids gs) {y : ServerM (List WriteGroup)}
    (hy : Unseen (observer f.record spec) gs →
      Frames (observer f.record spec) gs y fun next => ∀ g' ∈ next, g' ∈ gs)
    (h : ph s.results es) :
    wp (observer f.record spec) (fun r s' es' => ph s'.results es' ∧
      Ends f.Avoids (fun _ => True) r) y s es := by
  refine wp_mono ?_ (wp_skip hf hph hgs (hy (unseen_of_apart hspec hgs)) h)
  rintro r s' es' ⟨hph', hr⟩
  exact ⟨hph', hr.mono (fun next hnext g' hg' => hgs g' (hnext g' hg')) fun _ h => h⟩

/-- The group is published: its phase has to allow it. -/
theorem complete_focus (h : ph s.results (publication g s.results :: es))
    (hc : Concludes x g start s.results es) (hun : Unpublished start es) :
    wp (observer f.record spec) (fun r s' es' =>
      Ends (fun _ => ph s'.results es') (fun _ => Unpublished start es') r)
      (x.complete g.operations) s es := by
  unfold WriteExecution.complete
  rw [wp_bind]
  refine wp_quiet hspec (fun h => holds_frames <| x.settleReturns_holds h _) ?_ fun _ _ _ => hun
  rintro _ s' - hs'
  rw [wp_bind, wp_get]
  rw [← hs'] at h hc
  have hpublish : Conforms x g start f es
      (.complete (g.operations.map fun op => (op.index, s'.results op.index))) := by
    obtain ⟨r', hr', hagree⟩ := hc
    refine .inr ⟨r', hr', map_congr_left fun op hop => ?_⟩
    rw [hagree op hop]
  refine wp_ask (.complete _) (hspec es _ hpublish) fun _ => ?_
  obtain ⟨op, hop⟩ := exists_mem_of_ne_nil _ g.nonempty
  have hany : (g.operations.map fun op => (op.index, s'.results op.index)).any
      (fun p => decide (p.1 ∈ f.indexes)) = true :=
    any_eq_true.mpr ⟨_, mem_map_of_mem hop, by simpa using hf.indexes op hop⟩
  simp only [Focus.record]
  rw [if_pos hany]
  exact h

theorem settle_focus (F : Results → Results)
    (h : ph (F s.results) (publication g (F s.results) :: es))
    (hc : Concludes x g start (F s.results) es) (hun : Unpublished start es) :
    wp (observer f.record spec) (fun r s' es' =>
      Ends (fun _ => ph s'.results es') (fun _ => Unpublished start es') r)
      (setResults F >>= fun _ => x.complete g.operations) s es :=
  complete_focus hf hspec (s := { s with results := F s.results }) h hc hun

variable {pairs : List (Candidate × Storage.WriteResult)}

theorem settleCandidates_apart (hph : Local g ph) (hpairs : ∀ p ∈ pairs, f.Apart p.1.1)
    (h : ph s.results es) :
    wp (observer f.record spec) (fun r s' es' => ph s'.results es' ∧
      Ends f.Avoids (fun _ => True) r)
      (x.settleCandidates pairs) s es := by
  have hgs : f.Avoids (pairs.map (·.1.1)) := forall_mem_map.mpr hpairs
  exact wp_apart hf hspec hph hgs (fun hM => holds_frames <| x.settleCandidates_holds hM pairs
    fun p hp => mem_map_of_mem hp) h

theorem failCandidates_apart (hph : Local g ph) (err : GoError)
    (hc : ∀ c ∈ candidates, ApartCandidate f c) (h : ph s.results es) :
    wp (observer f.record spec) (fun _ s' es' => ph s'.results es')
      (x.failCandidates err candidates) s es := by
  have hgs : f.Avoids (candidates.map (·.1)) :=
    forall_mem_map.mpr fun c hmem => (hc c hmem).1
  exact wp_mono (fun _ _ _ h => h.1) (wp_skip hf hph hgs (holds_frames <| x.failCandidates_holds
    (unseen_of_apart hspec hgs) err candidates
      fun c hmem => ⟨mem_map_of_mem hmem, (hc c hmem).2⟩) h)

theorem commitWriteCandidates_apart (hph : Local g ph) (hc : ∀ c ∈ candidates, ApartCandidate f c)
    (h : ph s.results es) :
    wp (observer f.record spec) (fun r s' es' => ph s'.results es' ∧
      Ends f.Avoids (fun _ => True) r)
      (x.commitWriteCandidates candidates) s es := by
  have hgs : f.Avoids (candidates.map (·.1)) :=
    forall_mem_map.mpr fun c hmem => (hc c hmem).1
  exact wp_apart hf hspec hph hgs (fun hM => x.commitWriteCandidates_frames hM
    fun c hmem => ⟨mem_map_of_mem hmem, (hc c hmem).2⟩) h

variable {F : WriteResult → WriteResult}

theorem failGroups_apart (hph : Local g ph) (hF : ∀ r, (F r).operationIndex = r.operationIndex)
    (hgs : f.Avoids groups) (h : ph s.results es) :
    wp (observer f.record spec) (fun _ s' es' => ph s'.results es')
      (x.failGroups F groups) s es :=
  wp_mono (fun _ _ _ h => h.1) (wp_skip hf hph hgs (holds_frames <| x.failGroups_holds
    (unseen_of_apart hspec hgs) hF groups fun _ h => h) h)

theorem failGroups_focus (hF : ∀ r, (F r).operationIndex = r.operationIndex)
    (hsettle : ∀ es r, Pending x g start n r es →
      Settlement x g start es (updateEach (·.index) (fun _ => F) g.operations r))
    (hone : OneGroup g f groups) (h : Pending x g start n s.results es) :
    wp (observer f.record spec) (Exits x g start fun _ => Settled x g start)
      (x.failGroups F groups) s es := by
  induction hone generalizing s es with
  | @here g' rest hg' hrest =>
    subst hg'
    unfold WriteExecution.failGroups
    rw [wp_bind, wp_setResults]
    have hset := (hsettle es s.results h).settled (Agree.refl g' _)
    refine wp_seq (complete_focus hf hspec (s := { s with results := _ }) hset hset.concludes
      h.1.unpublished) ?_ fun _ _ _ => .inr
    intro _ s' es' hset
    refine wp_mono ?_ (failGroups_apart hf hspec settled_local hF hrest hset)
    rintro (e | _) s'' es'' hset
    · exact .inl hset
    · exact hset
  | @there g' rest hg' _ ih =>
    have hgs : f.Avoids [g'] := forall_mem_singleton.mpr hg'
    have hM := unseen_of_apart hspec hgs
    refine wp_seq (wp_skip hf (pending_local n) hgs
      (holds_frames <| setResults_holds mem_cons_self fun _ => hF) h) ?_
      fun _ _ _ h => h.1.interrupted
    rintro _ s₁ es₁ ⟨h₁, -⟩
    refine wp_seq (wp_skip hf (pending_local n) hgs
      (holds_frames <| x.complete_holds hM mem_cons_self) h₁) ?_
      fun _ _ _ h => h.1.interrupted
    rintro _ s₂ es₂ ⟨h₂, -⟩
    exact ih h₂

/-! ## Snapshots and their evaluation -/

theorem prepareCandidate_focus (stored : Storage.ReadResult) (s : ExecState) (es : History) :
    wp (observer f.record spec) (fun r s' es' =>
      ∃ prepared ctx, r = .ok prepared ∧ es' = .evaluated ctx :: es ∧
        x.Evaluates g ctx stored s.results prepared s'.results)
      (x.prepareCandidate g stored) s es := by
  unfold WriteExecution.prepareCandidate
  rw [wp_bind]
  refine wp_ask (.evaluate g.address) (hspec es _ trivial) fun ctx => ?_
  have hrec : f.record es (.evaluate g.address) ctx = .evaluated ctx :: es := if_pos hf.address
  rw [hrec]
  dsimp only
  rw [wp_bind, wp_get]
  dsimp only
  split
  · rename_i hnone
    refine ⟨_, ctx, rfl, rfl, ?_⟩
    simp only [WriteExecution.Evaluates, hnone]
  · rename_i b hsome
    refine ⟨_, ctx, rfl, rfl, ?_⟩
    simp only [WriteExecution.Evaluates, hsome]
    exact ⟨_, _, rfl, rfl⟩

theorem addCandidate_focus (hc : Outside f c) (h : Ready x g start n w s.results es) :
    wp (observer f.record spec) (Exits x g start (Located x g start f n))
      (x.addCandidate g w c) s es := by
  unfold WriteExecution.addCandidate
  split
  · rw [wp_bind, wp_setAttempt]
    refine wp_seq (commitWriteCandidates_apart hf hspec (ready_local n w) hc.candidates
      (s := { s with attempt := _ }) h) ?_ fun _ _ _ h => .inr h.1.unpublished
    rintro conflicts s₁ es₁ ⟨hready, hconf⟩
    rw [wp_bind, wp_setAttempt]
    rw [wp_bind]
    refine wp_quiet hspec (fun hM => holds_frames <| x.shrinkLease_holds hM _) ?_
      fun _ _ _ => .inr hready.unpublished
    rintro _ s₂ - hs₂
    have hready₂ : Ready x g start n w s₂.results es₁ := by rw [hs₂]; exact hready
    exact .candidate (forall_append hc.conflicts hconf) hc.deferred (.here rfl (by simp)) hready₂
  · exact .candidate hc.conflicts hc.deferred (.append_right hc.candidates (.here rfl (by simp))) h

/-- A snapshot of another group, before the focus was reached. -/
theorem applySnapshot_outside (hph : Local g ph) (hg' : f.Apart g') (stored : Storage.ReadResult)
    (hc : Outside f c) (h : ph s.results es) :
    wp (observer f.record spec) (fun r s' es' => ph s'.results es' ∧
      Ends (Outside f) (fun _ => True) r) (x.applySnapshot g' stored c) s es := by
  have hgs : ∀ g'' ∈ g' :: (c.conflicts ++ (c.deferred ++ c.candidates.map (·.1))),
      f.Apart g'' := by
    simp only [mem_cons, mem_append, mem_map]
    rintro g'' (rfl | h | h | ⟨d, hd, rfl⟩)
    · exact hg'
    · exact hc.conflicts g'' h
    · exact hc.deferred g'' h
    · exact (hc.candidates d hd).1
  have hchunk : WriteExecution.ChunkOf
      (g' :: (c.conflicts ++ (c.deferred ++ c.candidates.map (·.1)))) c :=
    ⟨fun g'' h => by simp [h], fun g'' h => by simp [h],
      fun d hd => ⟨by
        have hmem : d.1 ∈ c.candidates.map (·.1) := mem_map_of_mem hd
        simp only [mem_cons, mem_append]
        exact .inr (.inr (.inr hmem)), (hc.candidates d hd).2⟩⟩
  refine wp_mono ?_ (wp_skip hf hph hgs (x.applySnapshot_frames (unseen_of_apart hspec hgs)
    mem_cons_self stored hchunk) h)
  rintro r s' es' ⟨hph', hr⟩
  exact ⟨hph', hr.mono (fun c' hc' => ⟨fun g'' h => hgs g'' (hc'.conflicts h),
    fun g'' h => hgs g'' (hc'.deferred h),
    fun d hd => ⟨hgs d.1 (hc'.candidates d hd).1, (hc'.candidates d hd).2⟩⟩) fun _ h => h⟩

theorem readWriteSnapshots_focus (hone : OneGroup g f groups) (h : Pending x g start n s.results es)
    :
    wp (observer f.record spec) (Exits x g start fun snapshots r es => ∃ stored,
      Once (fun p => p.1 = g ∧ p.2 = stored) (fun p => f.Apart p.1) (groups.zip snapshots) ∧
        Fetched x g start n stored r es)
      (x.readWriteSnapshots groups) s es := by
  unfold WriteExecution.readWriteSnapshots
  rw [wp_bind, wp_get]
  dsimp only
  rw [wp_bind]
  refine wp_ask (.read _ _) (hspec es _ trivial) fun reply => ?_
  have hstop := record_read_unpublished (f := f) h.1.unpublished (groups.map x.snapshotRead)
    (Function.update s.attempt.cells (callerCount x.budgets) (.new x.maxReadBytes)) reply
  obtain ⟨results, cells'⟩ := reply
  cases results with
  | error e => exact .inr hstop
  | ok results =>
    dsimp only
    split
    · exact .inr hstop
    rename_i hlen
    obtain ⟨stored, hrec, hzip⟩ := record_read (x := x) hf hone
      (Function.update s.attempt.cells (callerCount x.budgets) (.new x.maxReadBytes)) es
      results cells' (not_not.mp hlen)
    rw [hrec]
    exact ⟨stored, hzip, es, rfl, h⟩

theorem executeChunk_apart (hph : Local g ph) {batch : List WriteGroup}
    (hgs : f.Avoids batch) (h : ph s.results es) :
    wp (observer f.record spec) (fun r s' es' => ph s'.results es' ∧
      Ends (fun outcome => f.Avoids outcome.1 ∧ f.Avoids outcome.2)
        (fun _ => True) r) (x.executeChunk batch) s es := by
  refine wp_mono ?_ (wp_skip hf hph hgs (x.executeChunk_frames (unseen_of_apart hspec hgs)
    fun _ h => h) h)
  rintro r s' es' ⟨hph', hr⟩
  exact ⟨hph', hr.mono (fun outcome hout => ⟨fun g' h => hgs g' (hout.1 h),
    fun g' h => hgs g' (hout.2 h)⟩) fun _ h => h⟩

/-! ## Committing -/

section Attempt

variable (hn : n < x.maxMergeAttempts)
include hn

theorem settleCandidates_focus
    (hpairs : Once (fun p => p.1 = (g, w) ∧ p.2 = reply) (fun p => ApartCandidate f p.1) pairs)
    (h : Answered x g start n w reply s.results es) :
    wp (observer f.record spec) (Exits x g start (Committed x g start f n))
      (x.settleCandidates pairs) s es := by
  induction hpairs generalizing s es with
  | @here p rest hp hrest =>
    obtain ⟨⟨g', op⟩, stored⟩ := p
    obtain ⟨hc, rfl⟩ := hp
    cases hc
    have hapart : ∀ p ∈ rest, f.Apart p.1.1 := fun p hp => (hrest p hp).1
    unfold WriteExecution.settleCandidates
    by_cases hstatus : stored.status = .preconditionFailed
    · rw [if_pos hstatus]
      refine wp_seq (settleCandidates_apart hf hspec (pending_local (n + 1)) hapart
        (h.pending hstatus)) ?_ ?_
      · rintro next s' es' ⟨hpend, hnext⟩
        exact .inl ⟨.here rfl hnext, hpend⟩
      · rintro e s' es' ⟨hpend, -⟩
        exact hpend.interrupted
    · rw [if_neg hstatus]
      have hset := h.settles hn hstatus
      refine wp_seq (settle_focus hf hspec _ hset hset.concludes h.unpublished) ?_
        fun _ _ _ => .inr
      intro _ s' es' hset
      refine wp_mono ?_ (settleCandidates_apart hf hspec settled_local hapart hset)
      rintro (e | next) s'' es'' ⟨hset, hnext⟩
      · exact .inl hset
      · exact .inr ⟨hnext, hset⟩
  | @there p rest hp _ ih =>
    obtain ⟨⟨g', op⟩, stored⟩ := p
    have hgs : f.Avoids [g'] := forall_mem_singleton.mpr hp.1
    unfold WriteExecution.settleCandidates
    split
    · refine wp_seq (ih h) ?_ ?_
      · rintro next s' es' (⟨hone, hpend⟩ | ⟨hall, hset⟩)
        · exact .inl ⟨.there hp.1 hone, hpend⟩
        · refine .inr ⟨forall_mem_cons.mpr ⟨hp.1, hall⟩, hset⟩
      · exact fun e s' es' h => h
    · refine wp_seq (wp_skip hf (answered_local n w reply) hgs
        (holds_frames <| x.settleStored_holds (unseen_of_apart hspec hgs) mem_cons_self
          stored op.document) h) ?_ ?_
      · rintro _ s' es' ⟨hans, -⟩
        exact ih hans
      · exact fun _ _ _ h => .inr h.1.unpublished

theorem failCandidates_focus (herr : err.errorDetails.1 = .resourceExhausted)
    (hc : OneCandidate g f w candidates) (h : Ready x g start n w s.results es) :
    wp (observer f.record spec) (Exits x g start fun _ => Settled x g start)
      (x.failCandidates err candidates) s es := by
  induction hc generalizing s es with
  | @here c rest hc hrest =>
    subst hc
    have hset := h.refused hn herr
    refine wp_seq (settle_focus hf hspec _ hset hset.concludes h.unpublished) ?_ fun _ _ _ => .inr
    intro _ s' es' hset
    refine wp_mono ?_ (failCandidates_apart hf hspec settled_local err hrest hset)
    rintro (e | _) s'' es'' hset
    · exact .inl hset
    · exact hset
  | @there c rest hc _ ih =>
    obtain ⟨g', op⟩ := c
    have hgs : f.Avoids [g'] := forall_mem_singleton.mpr hc.1
    refine wp_seq (wp_skip hf (ready_local n w) hgs (holds_frames <| x.settleGroup_holds
      (unseen_of_apart hspec hgs) mem_cons_self (.ofError err)) h) ?_ ?_
    · rintro _ s' es' ⟨hready, -⟩
      exact ih hready
    · exact fun _ _ _ h => .inr h.1.unpublished

theorem writeCandidates_focus (hc : OneCandidate g f w candidates)
    (h : Ready x g start n w s.results es) :
    wp (observer f.record spec) (Exits x g start (Committed x g start f n))
      (x.writeCandidates candidates) s es := by
  have hw : w.address = f.address := h.address.trans hf.address
  unfold WriteExecution.writeCandidates
  rw [wp_bind]
  refine wp_ask (.write _ _) (hspec es _ ?_) fun reply => ?_
  · exact .inr ⟨w, hw, h.proposes, hc.operations⟩
  · rcases record_write hw hc x.waitUntilVisible es reply with
      ⟨results, stored, rfl, hlen, hrec, hzip⟩ | ⟨hbad, hrec⟩
    · rw [hrec]
      dsimp only
      rw [if_neg (by simpa using hlen)]
      exact settleCandidates_focus hf hspec hn hzip ⟨es, rfl, h⟩
    · rw [hrec]
      have hstop : Interrupted x g start s.results (.lost w :: es) :=
        .inr (h.unpublished.cons (by simp))
      cases reply with
      | error e => exact hstop
      | ok results =>
        dsimp only
        rw [if_pos (hbad results rfl)]
        exact hstop

theorem commitWriteCandidates_focus (hc : OneCandidate g f w candidates)
    (h : Ready x g start n w s.results es) :
    wp (observer f.record spec) (Exits x g start (Committed x g start f n))
      (x.commitWriteCandidates candidates) s es := by
  have hready : ∀ {s' : ExecState}, s'.results = s.results → Ready x g start n w s'.results es :=
    fun hs => by rw [hs]; exact h
  unfold WriteExecution.commitWriteCandidates
  split
  · rename_i hempty
    cases hc <;> simp at hempty
  rw [wp_bind]
  refine wp_quiet hspec (fun hM => holds_frames (contextError_holds hM)) ?_
    fun _ _ _ => .inr h.unpublished
  rintro _ s₁ - hs₁
  rw [wp_bind, wp_get]
  dsimp only
  split
  · rw [wp_bind]
    refine wp_quiet hspec (fun hM => x.resize_frames hM _) ?_ fun _ _ _ => .inr h.unpublished
    rintro err s₂ - hs₂
    have h₂ := hready (hs₂.trans hs₁)
    cases err with
    | none => exact writeCandidates_focus hf hspec hn hc h₂
    | some e =>
      have herr : (resourceExhaustedError e).errorDetails.1 = .resourceExhausted := rfl
      dsimp only
      split
      · refine wp_seq (failCandidates_focus hf hspec hn herr hc h₂) ?_ fun _ _ _ h => h
        rintro _ s₃ es₃ hset
        exact .inr ⟨nofun, hset⟩
      · exact .inr h.unpublished
  · exact writeCandidates_focus hf hspec hn hc (hready hs₁)

/-! ## One chunk -/

theorem settleGroup_refused (herr : err.errorDetails.1 = .resourceExhausted)
    (h : Ready x g start n w s.results es) :
    wp (observer f.record spec) (Exits x g start fun _ => Settled x g start)
      (x.settleGroup g.operations (.ofError err)) s es := by
  have hset := h.refused hn herr
  refine wp_mono ?_ (settle_focus hf hspec _ hset hset.concludes h.unpublished)
  exact fun _ _ _ hend => hend.mono (fun _ => id) fun _ => .inr

theorem rejectCandidate_focus (herr : err.errorDetails.1 = .resourceExhausted)
    (h : Ready x g start n w s.results es) :
    wp (observer f.record spec)
      (Exits x g start fun admitted r es => admitted = false ∧ Settled x g start r es)
      (x.rejectCandidate g w err) s es := by
  unfold WriteExecution.rejectCandidate
  rw [wp_bind]
  refine wp_quiet hspec (fun hM => holds_frames <| x.shrinkLease_holds hM _) ?_
    fun _ _ _ => .inr h.unpublished
  rintro _ s' - hs'
  refine wp_seq (settleGroup_refused hf hspec hn herr (s := s') (by rw [hs']; exact h)) ?_
    fun _ _ _ h => h
  exact fun _ _ _ hset => ⟨rfl, hset⟩

theorem admitCandidate_focus (h : Ready x g start n w s.results es) :
    wp (observer f.record spec) (Exits x g start (Admitted x g start n w))
      (x.admitCandidate g w) s es := by
  have hstop : ∀ e s', s'.results = s.results →
      Exits x g start (Admitted x g start n w) (.error e) s' es :=
    fun _ _ _ => .inr h.unpublished
  have hreject : ∀ {err : GoError} {s' : ExecState}, err.errorDetails.1 = .resourceExhausted →
      s'.results = s.results → wp (observer f.record spec)
        (Exits x g start (Admitted x g start n w)) (x.rejectCandidate g w err) s' es := by
    intro err s' herr hs'
    refine wp_mono ?_ (rejectCandidate_focus hf hspec hn herr (s := s') (by rw [hs']; exact h))
    exact fun r _ _ hr => Ends.mono hr (fun _ => .inr) fun _ h => h
  unfold WriteExecution.admitCandidate
  rw [wp_bind]
  refine wp_quiet hspec (fun hM => holds_frames <| x.growLease_holds hM _) ?_ hstop
  rintro growthErr s₁ - hs₁
  cases growthErr with
  | some e =>
    have herr : (resourceExhaustedError e).errorDetails.1 = .resourceExhausted := rfl
    refine wp_seq (settleGroup_refused hf hspec hn herr (s := s₁) (by rw [hs₁]; exact h)) ?_
      fun _ _ _ h => h
    exact fun _ _ _ hset => .inr ⟨rfl, hset⟩
  | none =>
    dsimp only
    rw [wp_bind]
    refine wp_quiet hspec (fun hM => holds_frames <| x.reserveReturns_holds hM _ _) ?_
      fun e s' hs' => hstop e s' (hs'.trans hs₁)
    rintro returnErr s₂ hquota hs₂
    have hs₂' := hs₂.trans hs₁
    cases returnErr with
    | some e => exact hreject (hquota e rfl) hs₂'
    | none =>
      have hready : Ready x g start n w s₂.results es := by rw [hs₂']; exact h
      dsimp only
      split
      · exact .inl ⟨rfl, hready⟩
      rw [wp_bind, wp_get]
      dsimp only
      split
      · rename_i e hres
        obtain ⟨-, rfl⟩ := BudgetCell.reserve_error hres
        exact hreject rfl hs₂'
      · exact .inl ⟨rfl, hready⟩

/-- Committing the collected candidates keeps track of the focus: the chunk
may go on with any candidates of other groups. -/
theorem commit_located (h : Located x g start f n c s.results es) :
    wp (observer f.record spec) (Exits x g start fun conflicts r es => ∀ candidates bytes,
      (∀ d ∈ candidates, ApartCandidate f d) →
        Located x g start f n ⟨c.conflicts ++ conflicts, c.deferred, candidates, bytes⟩ r es)
      (x.commitWriteCandidates c.candidates) s es := by
  cases h with
  | settled hout h =>
    refine wp_mono ?_ (commitWriteCandidates_apart hf hspec settled_local hout.candidates h)
    rintro (e | next) s' es' ⟨hset, hnext⟩
    · exact .inl hset
    · exact fun cs b hcs => .settled ⟨forall_append hout.conflicts hnext, hout.deferred, hcs⟩ hset
  | conflict hone hdef hcand h =>
    refine wp_mono ?_ (commitWriteCandidates_apart hf hspec (pending_local _) hcand h)
    rintro (e | next) s' es' ⟨hpend, hnext⟩
    · exact hpend.interrupted
    · exact fun cs b hcs => .conflict (hone.append_left hnext) hdef hcs hpend
  | deferred hconf hone hcand h =>
    refine wp_mono ?_ (commitWriteCandidates_apart hf hspec (pending_local _) hcand h)
    rintro (e | next) s' es' ⟨hpend, hnext⟩
    · exact hpend.interrupted
    · exact fun cs b hcs => .deferred (forall_append hconf hnext) hone hcs hpend
  | candidate hconf hdef hone h =>
    refine wp_mono ?_ (commitWriteCandidates_focus hf hspec hn hone h)
    rintro (e | next) s' es' hr
    · exact hr
    · intro cs b hcs
      rcases hr with ⟨hnext, hpend⟩ | ⟨hnext, hset⟩
      · exact .conflict (Once.append_right hconf hnext) hdef hcs hpend
      · exact .settled ⟨forall_append hconf hnext, hdef, hcs⟩ hset

theorem addCandidate_located {op : Storage.WriteOperation} (hd : ApartCandidate f (g', op))
    (h : Located x g start f n c s.results es) :
    wp (observer f.record spec) (Exits x g start (Located x g start f n))
      (x.addCandidate g' op c) s es := by
  unfold WriteExecution.addCandidate
  split
  · rw [wp_bind, wp_setAttempt]
    refine wp_seq (commit_located hf hspec hn (s := { s with attempt := _ }) h) ?_ fun _ _ _ h => h
    intro conflicts s₁ es₁ hloc
    have hdone := hloc [(g', op)] (candidateBytes op) (by simpa using hd)
    rw [wp_bind, wp_setAttempt]
    rw [wp_bind]
    refine wp_quiet hspec (fun hM => holds_frames <| x.shrinkLease_holds hM _) ?_ ?_
    · rintro _ s₂ - hs₂
      show Located x g start f n _ s₂.results es₁
      rw [hs₂]
      exact hdone
    · rintro _ s₂ hs₂
      show Interrupted x g start s₂.results es₁
      rw [hs₂]
      exact hdone.interrupted
  · exact h.push hd _

/-- A snapshot of another group, after the focus was reached. -/
theorem applySnapshot_located (hg' : f.Apart g') (stored : Storage.ReadResult)
    (h : Located x g start f n c s.results es) :
    wp (observer f.record spec) (Exits x g start (Located x g start f n))
      (x.applySnapshot g' stored c) s es := by
  have hgs : f.Avoids [g'] := forall_mem_singleton.mpr hg'
  have hM := unseen_of_apart hspec hgs
  have hloc : Local g (Located x g start f n c) := located_local n c
  unfold WriteExecution.applySnapshot
  split
  · exact h.defer hg'
  refine wp_seq (wp_skip hf hloc hgs
    (holds_frames <| x.prepareCandidate_holds hM mem_cons_self stored) h) ?_
    fun _ _ _ h => h.1.interrupted
  rintro prepared s₁ es₁ ⟨h₁, haddr⟩
  cases prepared with
  | none =>
    refine wp_seq (wp_skip hf hloc hgs (holds_frames <| x.complete_holds hM mem_cons_self) h₁)
      (fun _ _ _ h => h.1) fun _ _ _ h => h.1.interrupted
  | some op =>
    refine wp_seq (wp_skip hf hloc hgs
      (holds_frames <| x.admitCandidate_holds hM mem_cons_self op) h₁) ?_
      fun _ _ _ h => h.1.interrupted
    rintro admitted s₂ es₂ ⟨h₂, -⟩
    split
    · exact addCandidate_located hf hspec hn ⟨hg', haddr op rfl⟩ h₂
    · exact h₂

theorem applySnapshot_focus (hc : Outside f c) (h : Fetched x g start n stored s.results es) :
    wp (observer f.record spec) (Exits x g start (Located x g start f n))
      (x.applySnapshot g stored c) s es := by
  obtain ⟨es', rfl, hat, hclean⟩ := h
  unfold WriteExecution.applySnapshot
  split
  · rename_i hdef
    exact .deferred hc.conflicts (.append_right hc.deferred (.here rfl (by simp))) hc.candidates
      ⟨.deferred hat hdef, hclean⟩
  · refine wp_seq (prepareCandidate_focus hf hspec stored s _) ?_ ?_
    · rintro prepared s₁ es₁ ⟨_, ctx, ⟨⟩, rfl, heval⟩
      cases prepared with
      | none =>
        have hset := (Settlement.nothing hat hn hclean heval).settled (Agree.refl g _)
        refine wp_seq (complete_focus hf hspec hset hset.concludes
          ((hat.unpublished.cons (by simp)).cons (by simp))) ?_ fun _ _ _ => .inr
        exact fun _ _ _ hset => .settled hc hset
      | some w =>
        have hready : Ready x g start n w s₁.results (.evaluated ctx :: .snapshot stored :: es') :=
          ⟨ctx, stored, es', _, _, rfl, hat, hclean, heval, Agree.refl g _⟩
        refine wp_seq (admitCandidate_focus hf hspec hn hready) ?_ fun _ _ _ h => h
        rintro admitted s₂ es₂ (⟨rfl, hready₂⟩ | ⟨rfl, hset⟩)
        · exact addCandidate_focus hf hspec hc hready₂
        · exact .settled hc hset
    · rintro e s₁ es₁ ⟨_, ctx, ⟨⟩, -⟩

theorem applySnapshots_located (hsnap : ∀ p ∈ snapshots, f.Apart p.1)
    (h : Located x g start f n c s.results es) :
    wp (observer f.record spec) (Exits x g start (Located x g start f n))
      (x.applySnapshots snapshots c) s es := by
  induction snapshots generalizing c s es with
  | nil => exact h
  | cons p rest ih =>
    refine wp_seq (applySnapshot_located hf hspec hn (hsnap p mem_cons_self) p.2 h) ?_
      fun _ _ _ h => h
    exact fun c' s' es' h' => ih (forall_mem_cons.mp hsnap).2 h'

theorem applySnapshots_focus
    (hsnap : Once (fun p => p.1 = g ∧ p.2 = stored) (fun p => f.Apart p.1) snapshots)
    (hc : Outside f c) (h : Fetched x g start n stored s.results es) :
    wp (observer f.record spec) (Exits x g start (Located x g start f n))
      (x.applySnapshots snapshots c) s es := by
  induction hsnap generalizing c s es with
  | @here p rest hp hrest =>
    obtain ⟨rfl, rfl⟩ := hp
    refine wp_seq (applySnapshot_focus hf hspec hn hc h) ?_ fun _ _ _ h => h
    exact fun c' s' es' h' => applySnapshots_located hf hspec hn hrest h'
  | @there p rest hp _ ih =>
    refine wp_seq (applySnapshot_outside hf hspec (fetched_local n stored) hp p.2 hc h) ?_
      fun _ _ _ h => .inr h.1.unpublished
    rintro c' s' es' ⟨h', hc'⟩
    exact ih hc' h'

theorem applyWriteSnapshots_focus
    (hsnap : Once (fun p => p.1 = g ∧ p.2 = stored) (fun p => f.Apart p.1) snapshots)
    (h : Fetched x g start n stored s.results es) :
    wp (observer f.record spec) (Exits x g start (Chunked x g start f n))
      (x.applyWriteSnapshots snapshots) s es := by
  refine wp_seq (applySnapshots_focus hf hspec hn hsnap ⟨nofun, nofun, nofun⟩ h) ?_
    fun _ _ _ h => h
  intro c s₁ es₁ h₁
  rw [wp_bind, wp_setAttempt]
  refine wp_seq (commit_located hf hspec hn (s := { s₁ with attempt := _ }) h₁) ?_ fun _ _ _ h => h
  intro conflicts s₂ es₂ h₂
  have hloc := h₂ [] 0 (by simp)
  cases hloc with
  | settled hout h => exact .settled hout.conflicts hout.deferred h
  | conflict hone hdef _ h => exact .conflict hone hdef h
  | deferred hconf hone _ h => exact .deferred hconf hone h
  | candidate _ _ hone _ => cases hone

theorem executeChunk_focus {batch : List WriteGroup} (hone : OneGroup g f batch)
    (h : Pending x g start n s.results es) :
    wp (observer f.record spec) (Exits x g start (Chunked x g start f n))
      (x.executeChunk batch) s es := by
  refine wp_seq (readWriteSnapshots_focus hf hspec hone h) ?_ fun _ _ _ h => h
  rintro snapshots s₁ es₁ ⟨stored, hsnap, hfetched⟩
  exact applyWriteSnapshots_focus hf hspec hn hsnap (s := { s₁ with attempt := _ }) hfetched

/-! ## Attempts -/

variable {pending : List WriteGroup}

theorem executeChunk_attempting (count : Nat)
    (h : Attempting x g start f n pending next s.results es) :
    wp (observer f.record spec) (Exits x g start fun outcome r es =>
      Attempting x g start f n (outcome.2 ++ pending.drop count) (next ++ outcome.1) r es)
      (x.executeChunk (pending.take count)) s es := by
  cases h with
  | pending hone hnext h =>
    rcases hone.of_take_drop count with ⟨htake, hdrop⟩ | ⟨htake, hdrop⟩
    · refine wp_mono ?_ (executeChunk_focus hf hspec hn htake h)
      rintro (e | outcome) s' es' hr
      · exact hr
      · cases hr with
        | conflict hone hdef h =>
          exact .conflict (forall_append hdef hdrop) (.append_right hnext hone) h
        | deferred hconf hone h =>
          exact .pending (hone.append_left hdrop) (forall_append hnext hconf) h
        | settled hconf hdef h =>
          exact .settled (forall_append hdef hdrop) (forall_append hnext hconf) h
    · refine wp_mono ?_ (executeChunk_apart hf hspec (pending_local n) htake h)
      rintro (e | outcome) s' es' ⟨h, hr⟩
      · exact h.interrupted
      · exact .pending (.append_right hr.2 hdrop) (forall_append hnext hr.1) h
  | conflict hpending hone h =>
    refine wp_mono ?_ (executeChunk_apart hf hspec (pending_local (n + 1))
      (fun g' hg' => hpending g' (mem_of_mem_take hg')) h)
    rintro (e | outcome) s' es' ⟨h, hr⟩
    · exact h.interrupted
    · exact .conflict (forall_append hr.2 fun g' hg' => hpending g' (mem_of_mem_drop hg'))
        (hone.append_left hr.1) h
  | settled hpending hnext h =>
    refine wp_mono ?_ (executeChunk_apart hf hspec settled_local
      (fun g' hg' => hpending g' (mem_of_mem_take hg')) h)
    rintro (e | outcome) s' es' ⟨h, hr⟩
    · exact .inl h
    · exact .settled (forall_append hr.2 fun g' hg' => hpending g' (mem_of_mem_drop hg'))
        (forall_append hnext hr.1) h

theorem failGroups_attempting (e : GoError)
    (h : Attempting x g start f n pending next s.results es) :
    wp (observer f.record spec) (Exits x g start fun _ => Committed x g start f n next)
      (x.failGroups (WriteExecution.exhaustedResult e) pending) s es := by
  have hF : ∀ r, (WriteExecution.exhaustedResult e r).operationIndex = r.operationIndex :=
    fun _ => rfl
  cases h with
  | pending hone hnext h =>
    refine wp_mono ?_ (failGroups_focus hf hspec hF (fun _ _ h => .exhausted h.1 hn h.2) hone h)
    rintro (e | _) s' es' hr
    · exact hr
    · exact .inr ⟨hnext, hr⟩
  | conflict hpending hone h =>
    refine wp_mono ?_ (failGroups_apart hf hspec (pending_local (n + 1)) hF hpending h)
    rintro (e | _) s' es' hr
    · exact hr.interrupted
    · exact .inl ⟨hone, hr⟩
  | settled hpending hnext h =>
    refine wp_mono ?_ (failGroups_apart hf hspec settled_local hF hpending h)
    rintro (e | _) s' es' hr
    · exact .inl hr
    · exact .inr ⟨hnext, hr⟩

theorem attemptLoop_focus :
    ∀ (fuel : Nat) (pending : List WriteGroup) (limit : Nat) (next : List WriteGroup)
      (s : ExecState) (es : History),
      Attempting x g start f n pending next s.results es →
        wp (observer f.record spec) (Exits x g start (Committed x g start f n))
          (x.attemptLoop fuel pending limit next) s es
  | 0, [], _, _, _, _, h => h.done
  | _ + 1, [], _, _, _, _, h => h.done
  | 0, _ :: _, _, _, _, _, _ => trivial
  | fuel + 1, g' :: rest, limit, next, s, es, h => by
    have hsame : ∀ s' : ExecState, s'.results = s.results →
        Attempting x g start f n (g' :: rest) next s'.results es :=
      fun s' hs' => by rw [hs']; exact h
    unfold WriteExecution.attemptLoop
    rw [wp_bind]
    refine wp_quiet hspec (fun hM => holds_frames (contextError_holds hM)) ?_
      fun _ s' hs' => (hsame s' hs').interrupted
    rintro _ s₁ - hs₁
    rw [wp_bind]
    refine wp_quiet hspec (fun hM => x.resize_frames hM _) ?_
      fun _ s' hs' => (hsame s' (hs'.trans hs₁)).interrupted
    rintro err s₂ - hs₂
    have h₂ := hsame s₂ (hs₂.trans hs₁)
    cases err with
    | some e =>
      exact wp_seq (failGroups_attempting hf hspec hn e h₂) (fun _ _ _ h => h) fun _ _ _ h => h
    | none =>
      refine wp_seq (executeChunk_attempting hf hspec hn _ h₂) ?_ fun _ _ _ h => h
      intro outcome s₃ es₃ h₃
      simp only [Exits, ends_ok] at h₃
      split
      · rename_i hempty
        rw [isEmpty_iff.mp hempty, nil_append] at h₃
        exact attemptLoop_focus fuel _ _ _ s₃ es₃ h₃
      · exact attemptLoop_focus fuel _ _ _ s₃ es₃ h₃

theorem executeWriteAttempt_focus (fuel : Nat) (hone : OneGroup g f groups)
    (h : Pending x g start n s.results es) :
    wp (observer f.record spec) (Exits x g start (Committed x g start f n))
      (x.executeWriteAttempt fuel groups) s es := by
  exact attemptLoop_focus hf hspec hn fuel groups _ [] { s with attempt := _ } es
    (.pending hone nofun h)

end Attempt

/-! ## All attempts -/

theorem attempts_focus (fuel : Nat) :
    ∀ (k n : Nat) (groups : List WriteGroup) (s : ExecState) (es : History),
      n + k = x.maxMergeAttempts →
      (OneGroup g f groups ∧ Pending x g start n s.results es) ∨
        (f.Avoids groups ∧ Settled x g start s.results es) →
      wp (observer f.record spec) (Exits x g start fun groups r es =>
        (OneGroup g f groups ∧ Pending x g start x.maxMergeAttempts r es) ∨
          (f.Avoids groups ∧ Settled x g start r es))
        (x.attempts fuel k groups) s es
  | 0, n, groups, s, es, hk, h => by
    obtain rfl : n = x.maxMergeAttempts := hk
    exact h
  | k + 1, n, [], s, es, hk, h => by
    rcases h with ⟨hone, -⟩ | h
    · cases hone
    · exact .inr h
  | k + 1, n, g' :: rest, s, es, hk, h => by
    have hn : n < x.maxMergeAttempts := by omega
    unfold WriteExecution.attempts
    rw [wp_bind]
    rcases h with ⟨hone, hpend⟩ | ⟨hall, hset⟩
    · refine wp_quiet hspec (fun hM => holds_frames (contextError_holds hM)) ?_ fun _ s' hs' => ?_
      · rintro _ s₁ - hs₁
        refine wp_seq (executeWriteAttempt_focus hf hspec hn fuel hone (s := s₁)
          (by rw [hs₁]; exact hpend)) ?_ fun _ _ _ h => h
        intro next s₂ es₂ h₂
        exact attempts_focus fuel k (n + 1) next s₂ es₂ (by omega) h₂
      · exact .inr hpend.1.unpublished
    · have hM := unseen_of_apart hspec hall
      refine wp_mono ?_ (wp_skip hf settled_local hall (holds_frames <| contextError_holds hM) hset)
      rintro (e | _) s₁ es₁ ⟨hset₁, -⟩
      · exact .inl hset₁
      · refine wp_seq (wp_skip hf settled_local hall
          (x.executeWriteAttempt_frames hM trivial fuel fun _ h => h) hset₁) ?_
          fun _ _ _ h => .inl h.1
        rintro next s₂ es₂ ⟨hset₂, hnext⟩
        exact attempts_focus fuel k (n + 1) next s₂ es₂ (by omega)
          (.inr ⟨fun g'' h => hall g'' (hnext h), hset₂⟩)

/-- `executeConditionalWrites` settles every group, or stops with an error
that leaves it settled or unpublished. -/
theorem executeConditionalWrites_focus (fuel : Nat) (hone : OneGroup g f groups)
    (hclean : CleanOn g s.results) :
    wp (observer f.record spec) (Exits x g start fun _ => Settled x g start)
      (x.executeConditionalWrites fuel groups) s start := by
  refine wp_seq (attempts_focus hf hspec fuel _ 0 groups s start (Nat.zero_add _)
    (.inl ⟨hone, .start, hclean⟩)) ?_ fun _ _ _ h => h
  rintro pending s₁ es₁ (⟨hone₁, hpend⟩ | ⟨hall, hset⟩)
  · exact failGroups_focus hf hspec (F := WriteExecution.conflictResult) (fun _ => rfl)
      (fun _ _ h => .conflict h.1 h.2) hone₁ hpend
  · refine wp_mono ?_ (failGroups_apart hf hspec settled_local
      (F := WriteExecution.conflictResult) (fun _ => rfl) hall hset)
    rintro (e | _) s₂ es₂ h₂
    · exact .inl h₂
    · exact h₂

end Steps

end Focused

end Sink
