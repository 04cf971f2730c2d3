import Mathlib.Data.List.Nodup
import Sink.Commits
import Sink.Lib.Threads
import Sink.Revisions

/-!
# Concurrent executors of one record

Any number of executors run `executeWriteGroups`, each with its own chain
for the same record of one memory store, while others delete records. Every
storage call is atomic; the calls come in any order.

The trace of such a run is read as a list of commits and deletes
(`entries`), and `Replays` says what it means for the record: each commit
runs one part of a chain on the document it replaced. `Consistent` is the
invariant of the run. Its heart is the pair of facts about revisions: the
counter will not produce a revision that was already seen, so a snapshot
whose revision still matches shows the document that is still stored.
-/

namespace Sink

open Interact Interact.Exec Function List Memory

/-! ## The system -/

/-- One executor, with its chain for the record `a`. It may write other
records beside it. -/
structure Job (a : Address) where
  x : WriteExecution
  fuel : Nat
  groups : List WriteGroup
  chain : WriteGroup
  s₀ : ExecState
  address : chain.address = a
  distinct : chain.Distinct
  fresh : Fresh chain s₀.results
  one : OneGroup chain (Focus.of chain) groups

namespace Job

variable {a : Address}
variable {ends : List (WriteGroup × Results)} {p : WriteGroup} {mid : History}

def program (j : Job a) : Prog Call Reply (Fallible Unit × ExecState) :=
  j.x.executeWriteGroups j.fuel j.groups j.s₀

def focus (j : Job a) : Focus := .of j.chain

/-- The part of the chain that is under way, after the parts in `ends`. -/
structure Within (j : Job a) (ends : List (WriteGroup × Results)) (p : WriteGroup)
    (mid : History) : Prop where
  parts : ∃ rest, j.chain.parts = ends.map (·.1) ++ p :: rest
  chained : Chained j.x ends [] mid

def Keeps (j : Job a) (es : History) (c : Call) : Prop :=
  ∃ ends p mid, j.Within ends p mid ∧ Conforms j.x p mid j.focus es c

/-- Results it hands out are those of a concluded part. -/
def Publishes (j : Job a) (es : History) (results : List (Nat × WriteResult)) : Prop :=
  ∃ ends p mid r, j.Within ends p mid ∧ Concluded j.x p mid es r ∧
    results = p.operations.map fun op => (op.index, r op.index)

/-- Whatever it is answered, an executor conforms and strings its chain. -/
theorem guarantee (j : Job a) :
    Prog.wp (logWorld fun h c => j.Keeps (j.focus.history h) c)
      (fun r h => Strung j.x j.chain [] r.1 r.2 (j.focus.history h)) j.program [] := by
  have hpermits : PermitsParts j.x j.chain [] j.focus j.Keeps :=
    fun ends p rest mid hparts hchained es c hc => ⟨ends, p, mid, ⟨⟨rest, hparts⟩, hchained⟩, hc⟩
  have hwp := executeWriteGroups_focus j.fuel j.one (Focus.of_holds j.chain) j.distinct j.fresh
    hpermits
  exact wp_log (h := []) hwp

variable {j : Job a}

theorem Within.index (h : j.Within ends p mid) :
    stage mid = ends.length ∧ j.chain.parts[stage mid]? = some p := by
  have hstage : stage mid = ends.length := by
    rw [h.chained.stage]
    exact Nat.zero_add _
  refine ⟨hstage, ?_⟩
  obtain ⟨rest, hparts⟩ := h.parts
  rw [hstage, hparts, getElem?_append_right (by simp)]
  simp

theorem Within.mem (h : j.Within ends p mid) : p ∈ j.chain.parts := by
  obtain ⟨rest, hparts⟩ := h.parts
  rw [hparts]
  exact mem_append_right _ mem_cons_self

theorem Within.distinct (h : j.Within ends p mid) : p.Distinct := by
  have hsub : p.operations.Sublist j.chain.operations := by
    rw [← j.chain.parts_operations]
    exact sublist_flatten_of_mem (mem_map_of_mem h.mem)
  exact (hsub.map _).nodup j.distinct

end Job

/-- How the environment answers: the storage is the memory store, everything
else may be answered in any way. -/
def serveMemory (store : Store) : (c : Call) → Reply c → Store → Prop
  | .read ops cells, reply, store' => store' = store ∧ ∃ lease,
      reply = (.ok (store.read ops ⟨cells, lease⟩).1, (store.read ops ⟨cells, lease⟩).2.cells)
  | .write ops _, reply, store' =>
    reply = .ok (store.write ops).1 ∧ store' = (store.write ops).2
  | .delete addresses _, reply, store' =>
    reply = .ok (store.delete addresses).1 ∧ store' = (store.delete addresses).2
  | _, _, store' => store' = store

/-- The shared memory store; others delete records at any time. -/
def memoryService : Service Call Reply Store (List Address) where
  serve := serveMemory
  act store addresses store' := store' = (store.delete addresses).2

abbrev Trace (ι : Type) := List (Turn ι Call Reply (List Address))

/-- Applied writes of any record in one answered call. -/
def appliedBy : (c : Call) → Reply c → Nat
  | .write _ _, .ok results => applied results
  | _, _ => 0

def appliedWrites {ι : Type} : Trace ι → Nat
  | [] => 0
  | .call _ e :: trace => appliedBy e.call e.reply + appliedWrites trace
  | .act _ :: trace => appliedWrites trace

/-! ## Commits and deletes -/

section Entries

variable {ι : Type} [DecidableEq ι] {a : Address}

/-- What happened to the record. -/
inductive Entry (ι : Type) where
  /-- Executor `i` committed a part of its chain, with this document. -/
  | commit (i : ι) (part : Nat) (document : Document)
  | delete
deriving DecidableEq

def Entry.isCommit (i : ι) (k : Nat) : Entry ι → Bool
  | .commit j m _ => decide (j = i ∧ m = k)
  | .delete => false

/-- How often executor `i` committed its part `k`. -/
def commitCount (i : ι) (k : Nat) (log : List (Entry ι)) : Nat := log.countP (Entry.isCommit i k)

def deletion (a : Address) (addresses : List Address) : List (Entry ι) :=
  if a ∈ addresses then [.delete] else []

/-- What a change of the executor's history says about the record. -/
def commitEntry (i : ι) (part : Nat) : History → List (Entry ι)
  | .wrote w reply :: _ => if reply.status = .applied then [.commit i part w.document] else []
  | _ => []

/-- The history of executor `i`. -/
def chainHistory (jobs : ι → Job a) (trace : Trace ι) (i : ι) : History :=
  (jobs i).focus.history (eventsOf i trace)

/-- What an answered call of executor `i`, while at this part of its chain,
says about the record. -/
def callEntries (jobs : ι → Job a) (i : ι) (part : Nat) : (c : Call) → Reply c → List (Entry ι)
  | .delete addresses _, _ => deletion a addresses
  | c, r => commitEntry i part ((jobs i).focus.record [] c r)

/-- The commits and deletes of the record, newest first. -/
def entries (jobs : ι → Job a) : Trace ι → List (Entry ι)
  | [] => []
  | .call i e :: trace =>
    callEntries jobs i (stage (chainHistory jobs trace i)) e.call e.reply ++ entries jobs trace
  | .act addresses :: trace => deletion a addresses ++ entries jobs trace

/-- `Replays jobs initial log d`: starting from `initial`, the commits and
deletes of `log` leave the document `d`, each commit being the sequential
run of its part on the document it replaced. -/
inductive Replays (jobs : ι → Job a) (initial : Option Document) :
    List (Entry ι) → Option Document → Prop where
  | start : Replays jobs initial [] initial
  | delete {log d : _} (h : Replays jobs initial log d) :
      Replays jobs initial (.delete :: log) none
  | commit {log d d' i k p took : _} (h : Replays jobs initial log d)
      (hpart : (jobs i).chain.parts[k]? = some p) (hp : AppliesTo (jobs i).x p d d' took) :
      Replays jobs initial (.commit i k d' :: log) (some d')

end Entries

/-! ## The invariant -/

section Invariant

variable {ι : Type} [DecidableEq ι] {a : Address}
variable {hist : ι → History} {i : ι} {e : ChainEvent} {w : Storage.WriteOperation}
  {store₀ : Store} {trace : Trace ι}
  {cfg : Config ι Call Reply (Fallible Unit × ExecState) Store} {op : ParsedWrite}

variable (jobs : ι → Job a) (initial : Option Document)

/-- The applied write is in the log, and the record it met was consistent
with every snapshot taken before. -/
def Landed (log : List (Entry ι)) (i : ι)
    (w : Storage.WriteOperation) (es : History) : Prop :=
  ∃ later earlier record, log = later ++ .commit i (stage es) w.document :: earlier ∧
    Replays jobs initial earlier (Option.map Record.document record) ∧
    Store.matchesPrecondition w.precondition record = true ∧
    ∀ stored, .snapshot stored ∈ es → Current stored record

structure Consistent (bound : Nat)
    (store : Store) (hist : ι → History) (log : List (Entry ι)) : Prop where
  replays : Replays jobs initial log ((store.records a).map (·.document))
  stored : ∀ record, store.records a = some record →
    NotAhead store.nextRevision bound record.revision
  seen : ∀ i stored, .snapshot stored ∈ hist i → stored.status = .found →
    NotAhead store.nextRevision bound stored.revision
  current : ∀ i stored, .snapshot stored ∈ hist i → Current stored (store.records a)
  landed : ∀ i w reply es, (.wrote w reply :: es) <:+ hist i → reply.status = .applied →
    Landed jobs initial log i w es
  published : ∀ i results es, (.published results :: es) <:+ hist i →
    (jobs i).Publishes es results
  counts : ∀ i k, commitCount i k log = commitsOf k (hist i)
  once : ∀ i k, commitsOf k (hist i) ≤ 1

/-- One more event in the history of executor `i`. -/
abbrev heard (hist : ι → History) (i : ι) (e : ChainEvent) : ι → History :=
  update hist i (e :: hist i)

variable {e' : ChainEvent}

theorem mem_heard {j : ι} (h : e' ∈ heard hist i e j) : (j = i ∧ e' = e) ∨ e' ∈ hist j := by
  by_cases hj : j = i
  · subst hj
    rw [heard, update_self] at h
    exact (mem_cons.mp h).imp (fun h => ⟨rfl, h⟩) id
  · rw [heard, update_of_ne hj] at h
    exact .inr h

variable {es : History}

theorem suffix_heard {j : ι} (h : (e' :: es) <:+ heard hist i e j) :
    (j = i ∧ e' = e ∧ es = hist i) ∨ (e' :: es) <:+ hist j := by
  by_cases hj : j = i
  · subst hj
    rw [heard, update_self] at h
    rcases suffix_cons_iff.mp h with heq | h
    · obtain ⟨rfl, rfl⟩ := cons.inj heq
      exact .inl ⟨rfl, rfl, rfl⟩
    · exact .inr h
  · rw [heard, update_of_ne hj] at h
    exact .inr h

theorem commitsOf_heard (he : ∀ w reply, e = .wrote w reply → reply.status ≠ .applied) (j : ι)
    (k : Nat) : commitsOf k (heard hist i e j) = commitsOf k (hist j) := by
  by_cases hj : j = i
  · subst hj
    rw [heard, update_self]
    cases e with
    | wrote w reply => simp [commitsOf, he w reply rfl]
    | _ => rfl
  · rw [heard, update_of_ne hj]

variable {jobs : ι → Job a} {initial : Option Document} {bound : Nat} {store store' : Store}
  {hist : ι → History} {log : List (Entry ι)}

omit [DecidableEq ι] in
theorem Landed.cons (h : Landed jobs initial log i w es) (entry : Entry ι) :
    Landed jobs initial (entry :: log) i w es := by
  obtain ⟨later, earlier, record, rfl, hrest⟩ := h
  exact ⟨entry :: later, earlier, record, rfl, hrest⟩

/-- Before the run nothing happened, and the stored revision is not one the
counter will produce. -/
theorem Consistent.start
    (hseed : ∀ record, store.records a = some record →
      NotAhead store.nextRevision bound record.revision) :
    Consistent jobs ((store.records a).map (·.document)) bound store (fun _ => []) [] where
  replays := .start
  stored := hseed
  seen := by simp
  current := by simp
  landed := by simp
  published := by simp
  counts := fun _ _ => rfl
  once := fun _ _ => Nat.zero_le _

/-- Events that change neither the record nor the commits. -/
inductive Quiet (store : Store) (j : Job a) (es : History) : ChainEvent → Prop where
  | snapshot {stored : _} (h : store.Shows a stored) :
      Quiet store j es (.snapshot stored)
  | evaluated (ctx : Nat → Bool) : Quiet store j es (.evaluated ctx)
  | rejected (w : Storage.WriteOperation) {reply : Storage.WriteResult}
      (h : reply.status ≠ .applied) : Quiet store j es (.wrote w reply)
  | published {results : _} (h : j.Publishes es results) :
      Quiet store j es (.published results)

section

variable (h : Consistent jobs initial bound store hist log)

include h

theorem Consistent.hear (he : Quiet store (jobs i) (hist i) e) :
    Consistent jobs initial bound store (heard hist i e) log := by
  have hcommits := @commitsOf_heard ι _ hist i e (by
    rintro w reply rfl
    cases he
    assumption)
  constructor
  case replays => exact h.replays
  case stored => exact h.stored
  case seen =>
    intro j stored hmem hfound
    rcases mem_heard hmem with ⟨rfl, rfl⟩ | hmem
    · cases he with
      | snapshot hshows =>
        cases hshows with
        | present hrecord => exact h.stored _ hrecord
        | _ => cases hfound
    · exact h.seen j stored hmem hfound
  case current =>
    intro j stored hmem
    rcases mem_heard hmem with ⟨rfl, rfl⟩ | hmem
    · cases he with
      | snapshot hshows =>
        cases hshows with
        | absent => exact ⟨fun _ => rfl, by simp⟩
        | present hrecord =>
          refine ⟨by simp, fun _ rec hrec _ => ?_⟩
          rw [hrecord] at hrec
          rw [Option.some.inj hrec]
        | refused => exact ⟨by simp, by simp⟩
    · exact h.current j stored hmem
  case landed =>
    intro j w reply es hsuffix happlied
    rcases suffix_heard hsuffix with ⟨rfl, rfl, rfl⟩ | hsuffix
    · cases he with
      | rejected _ hne => exact absurd happlied hne
    · exact h.landed j w reply es hsuffix happlied
  case published =>
    intro j results es hsuffix
    rcases suffix_heard hsuffix with ⟨rfl, rfl, rfl⟩ | hsuffix
    · cases he with
      | published hpub => exact hpub
    · exact h.published j results es hsuffix
  case counts =>
    intro j k
    rw [hcommits]
    exact h.counts j k
  case once =>
    intro j k
    rw [hcommits]
    exact h.once j k

theorem Consistent.pass (hrecord : store'.records a = store.records a)
    (hcounter : store.nextRevision ≤ store'.nextRevision) :
    Consistent jobs initial bound store' hist log where
  replays := hrecord ▸ h.replays
  stored := fun record hr => (h.stored record (hrecord ▸ hr)).mono hcounter
  seen := fun i stored hmem hfound => (h.seen i stored hmem hfound).mono hcounter
  current := hrecord ▸ h.current
  landed := h.landed
  published := h.published
  counts := h.counts
  once := h.once

theorem Consistent.delete (hrecord : store'.records a = none)
    (hcounter : store.nextRevision ≤ store'.nextRevision) :
    Consistent jobs initial bound store' hist (.delete :: log) where
  replays := hrecord ▸ h.replays.delete
  stored := by simp [hrecord]
  seen := fun i stored hmem hfound => (h.seen i stored hmem hfound).mono hcounter
  current := fun i stored hmem => ⟨(h.current i stored hmem).absent, by simp [hrecord]⟩
  landed := fun i w reply es hs ha => (h.landed i w reply es hs ha).cons _
  published := h.published
  counts := fun i k => (h.counts i k)
  once := h.once

variable {reply : Storage.WriteResult}

omit h in
theorem commitsOf_committed (happlied : reply.status = .applied) (j : ι) (k : Nat) :
    commitsOf k (heard hist i (.wrote w reply) j) =
      (if i = j ∧ stage (hist i) = k then 1 else 0) + commitsOf k (hist j) := by
  by_cases hj : j = i
  · subst hj
    simp [heard, commitsOf, happlied]
  · have hne : ¬ (i = j ∧ stage (hist i) = k) := fun h => hj h.1.symm
    rw [heard, update_of_ne hj, if_neg hne, Nat.zero_add]

theorem Consistent.commit (hbound : bound < 2 ^ 64) (hcounter : store'.nextRevision ≤ bound)
    {ends p mid}
    (hwithin : (jobs i).Within ends p mid) (hpropose : Proposes (jobs i).x p mid (hist i) w)
    (happlied : reply.status = .applied) {m : Nat}
    (hmatch : Store.matchesPrecondition w.precondition (store.records a) = true)
    (hold : store.nextRevision < m) (hnew : m ≤ store'.nextRevision)
    (hrecord : store'.records a = some ⟨w.document, bigEndian64 m⟩) :
    Consistent jobs initial bound store' (heard hist i (.wrote w reply))
      (.commit i (stage (hist i)) w.document :: log) := by
  have hmono : store.nextRevision ≤ store'.nextRevision := by omega
  have hstage : stage (hist i) = stage mid := hpropose.stage
  have happlies : ∃ took, AppliesTo (jobs i).x p ((store.records a).map (·.document))
      w.document took := hpropose.appliesTo hwithin.distinct (h.current i) hmatch
  have hnone : commitsOf (stage (hist i)) (hist i) = 0 := by
    rw [hpropose.commitsOf, hstage]
    exact hwithin.chained.fresh rfl
  constructor
  case replays =>
    obtain ⟨took, happlies⟩ := happlies
    rw [hrecord]
    exact .commit h.replays (hstage ▸ hwithin.index.2) happlies
  case stored =>
    intro record hr
    rw [hrecord] at hr
    rw [← Option.some.inj hr]
    exact notAhead_of_issued hnew hbound
  case seen =>
    intro j stored hmem hfound
    rcases mem_heard hmem with ⟨-, heq⟩ | hmem
    · cases heq
    · exact (h.seen j stored hmem hfound).mono hmono
  case current =>
    intro j stored hmem
    rcases mem_heard hmem with ⟨-, heq⟩ | hmem
    · cases heq
    -- no snapshot has the revision the counter has just produced
    refine ⟨(h.current j stored hmem).absent, fun hfound rec hrec hrev => ?_⟩
    rw [hrecord] at hrec
    cases hrec
    exact absurd hrev.symm (h.seen j stored hmem hfound m hold (by omega))
  case landed =>
    intro j w' reply' es hsuffix happlied'
    rcases suffix_heard hsuffix with ⟨rfl, heq, rfl⟩ | hsuffix
    · cases heq
      exact ⟨[], log, store.records a, rfl, h.replays, hmatch, h.current j⟩
    · exact (h.landed j w' reply' es hsuffix happlied').cons _
  case published =>
    intro j results es hsuffix
    rcases suffix_heard hsuffix with ⟨-, heq, -⟩ | hsuffix
    · cases heq
    · exact h.published j results es hsuffix
  case counts =>
    intro j k
    rw [commitsOf_committed happlied, commitCount, countP_cons, ← h.counts j k, commitCount,
      Nat.add_comm]
    simp [Entry.isCommit]
  case once =>
    intro j k
    rw [commitsOf_committed happlied]
    split
    · rename_i hk
      obtain ⟨rfl, rfl⟩ := hk
      rw [hnone]
    · rw [Nat.zero_add]
      exact h.once j k

end

/-! ## One call -/

/-- The invariant after a call of executor `i`. -/
def ConsistentAfter (jobs : ι → Job a) (initial : Option Document) (bound : Nat)
    (store : Store) (hist : ι → History) (log : List (Entry ι)) (i : ι)
    (c : Call) (r : Reply c) : Prop :=
  Consistent jobs initial bound store
    (update hist i ((jobs i).focus.record (hist i) c r))
    (callEntries jobs i (stage (hist i)) c r ++ log)

theorem Job.focus_address (j : Job a) : j.focus.address = a := j.address

section

variable (h : Consistent jobs initial bound store hist log)

include h

theorem consistent_unheard (i : ι) :
    Consistent jobs initial bound store (update hist i (hist i)) log := by
  rw [update_eq_self]
  exact h

theorem Consistent.read {ops cells r} (hserve : serveMemory store (.read ops cells) r store') :
    store' = store ∧ ConsistentAfter jobs initial bound store' hist log i (.read ops cells) r := by
  obtain ⟨rfl, lease, rfl⟩ := hserve
  refine ⟨rfl, ?_⟩
  unfold ConsistentAfter
  cases hfind : (ops.zip (store'.read ops ⟨cells, lease⟩).1).find?
      fun p => decide (p.1.address = (jobs i).focus.address) with
  | none =>
    simp only [Focus.record, callEntries, hfind]
    exact consistent_unheard h i
  | some p =>
    simp only [Focus.record, callEntries, hfind]
    have hshows := Store.read_shows (mem_of_find?_eq_some hfind)
    have haddress : p.1.address = a := by
      simpa [Job.focus_address] using find?_some hfind
    exact h.hear (.snapshot (haddress ▸ hshows))

theorem Consistent.evaluate (i : ι) (address : Address) (ctx : Nat → Bool) :
    ConsistentAfter jobs initial bound store hist log i (.evaluate address) ctx := by
  unfold ConsistentAfter
  by_cases haddr : address = (jobs i).focus.address
  · simp only [Focus.record, callEntries, if_pos haddr]
    exact h.hear (.evaluated ctx)
  · simp only [Focus.record, callEntries, if_neg haddr]
    exact consistent_unheard h i

variable {results : List (Nat × WriteResult)}

theorem Consistent.complete (hkeeps : (jobs i).Keeps (hist i) (.complete results)) :
    ConsistentAfter jobs initial bound store hist log i (.complete results) () := by
  unfold ConsistentAfter
  by_cases hany : (results.any fun p => decide (p.1 ∈ (jobs i).focus.indexes)) = true
  · simp only [Focus.record, callEntries, if_pos hany]
    refine h.hear (.published ?_)
    obtain ⟨ends, p, mid, hwithin, hconforms⟩ := hkeeps
    rcases hconforms with hother | ⟨r, hconcluded, hresults⟩
    · obtain ⟨q, hq, hmem⟩ := any_eq_true.mp hany
      exact absurd (of_decide_eq_true hmem) (hother q hq)
    · exact ⟨ends, p, mid, r, hwithin, hconcluded, hresults⟩
  · simp only [Focus.record, callEntries, if_neg hany]
    exact consistent_unheard h i

theorem Consistent.deletion (addresses : List Address) :
    Consistent jobs initial bound (store.delete addresses).2 hist
      (deletion a addresses ++ log) := by
  have hrecord := store.delete_record addresses a
  have hcounter : store.nextRevision ≤ (store.delete addresses).2.nextRevision :=
    Nat.le_of_eq (store.delete_counter addresses).symm
  unfold Sink.deletion
  by_cases ha : a ∈ addresses
  · rw [if_pos ha] at hrecord ⊢
    exact h.delete hrecord hcounter
  · rw [if_neg ha] at hrecord ⊢
    exact h.pass hrecord hcounter

theorem Consistent.write (hbound : bound < 2 ^ 64) {ops visible}
    (hkeeps : (jobs i).Keeps (hist i) (.write ops visible))
    (hcount : store.nextRevision + applied (store.write ops).1 ≤ bound) :
    ConsistentAfter jobs initial bound (store.write ops).2 hist log i (.write ops visible)
      (.ok (store.write ops).1) := by
  have hcounter := @Store.write_counter store ops (by omega)
  unfold ConsistentAfter
  obtain ⟨ends, p, mid, hwithin, hother | ⟨w, hw, hpropose, hone⟩⟩ := hkeeps
  · have hfind := find_apart Storage.WriteOperation.address hother
    simp only [Focus.record, callEntries, hfind]
    rw [(jobs i).focus_address] at hother
    exact consistent_unheard (h.pass (Store.write_apart hother) (by omega)) i
  · obtain ⟨w', rfl, hfind⟩ := hone.find?
      (q := fun op => decide (op.address = (jobs i).focus.address))
      (by rintro o rfl; simpa using hw) (by simp)
    rw [← hw] at hone
    obtain ⟨reply, hlands, hreply⟩ := @Store.write_lands store ops w' hone (by omega)
    rw [hw] at hreply
    have haddr : w'.address = a := hw.trans (jobs i).focus_address
    simp only [Focus.record, callEntries, hfind, hreply, Store.write_length, ne_eq,
      not_true_eq_false, if_false, commitEntry]
    cases hlands with
    | replaced happlied hmatch hold hnew hrecord =>
      rw [haddr] at hmatch hrecord
      rw [if_pos happlied]
      exact h.commit hbound (by omega) hwithin hpropose happlied hmatch hold hnew hrecord
    | kept hne hrecord =>
      rw [haddr] at hrecord
      rw [if_neg hne]
      exact (h.pass hrecord (by omega)).hear (.rejected w' hne)

theorem Consistent.call (hbound : bound < 2 ^ 64) {c : Call} {r : Reply c}
    (hkeeps : (jobs i).Keeps (hist i) c) (hserve : serveMemory store c r store')
    (hcount : store.nextRevision + appliedBy c r ≤ bound) :
    store'.nextRevision = store.nextRevision + appliedBy c r ∧
      ConsistentAfter jobs initial bound store' hist log i c r := by
  cases c with
  | read ops cells =>
    obtain ⟨hstore, hafter⟩ := h.read hserve
    exact ⟨congrArg Store.nextRevision hstore, hafter⟩
  | write ops visible =>
    obtain ⟨rfl, rfl⟩ := hserve
    exact ⟨Store.write_counter (by simp only [appliedBy] at hcount; omega),
      h.write hbound hkeeps hcount⟩
  | delete addresses visible =>
    obtain ⟨rfl, rfl⟩ := hserve
    exact ⟨store.delete_counter addresses, consistent_unheard (h.deletion addresses) i⟩
  | evaluate address =>
    obtain rfl : store' = store := hserve
    exact ⟨rfl, h.evaluate i address r⟩
  | complete results =>
    obtain rfl : store' = store := hserve
    exact ⟨rfl, h.complete hkeeps⟩
  | _ =>
    obtain rfl : store' = store := hserve
    exact ⟨rfl, consistent_unheard h i⟩

end

/-! ## Whole runs -/

theorem chainHistory_call (jobs : ι → Job a) (trace : Trace ι) (i : ι) (c : Call) (r : Reply c) :
    chainHistory jobs (.call i ⟨c, r⟩ :: trace) =
      update (chainHistory jobs trace) i
        ((jobs i).focus.record (chainHistory jobs trace i) c r) := by
  funext j
  by_cases hj : i = j
  · subst hj
    simp only [update_self, chainHistory, eventsOf, if_pos]
    rfl
  · simp only [update_of_ne (Ne.symm hj), chainHistory, eventsOf, if_neg hj]

theorem consistent_of_reaches (jobs : ι → Job a)
    (hrun : Reaches memoryService (.start store₀ fun i => (jobs i).program) trace cfg)
    {bound : Nat} (hbound : bound < 2 ^ 64)
    (hseed : ∀ record, store₀.records a = some record →
      NotAhead store₀.nextRevision bound record.revision)
    (hcount : store₀.nextRevision + appliedWrites trace ≤ bound) :
    cfg.shared.nextRevision = store₀.nextRevision + appliedWrites trace ∧
      Consistent jobs ((store₀.records a).map (·.document)) bound cfg.shared
        (chainHistory jobs trace) (entries jobs trace) := by
  induction hrun with
  | start => exact ⟨rfl, .start hseed⟩
  | @call trace cfg i c k r shared hreach hcall hserve ih =>
    simp only [appliedWrites] at hcount ⊢
    obtain ⟨hcounter, hconsistent⟩ := ih (by omega)
    have hkeeps : (jobs i).Keeps (chainHistory jobs trace i) c :=
      hreach.pending (i := i) (jobs i).guarantee hcall
    obtain ⟨hnext, hafter⟩ := hconsistent.call hbound hkeeps hserve (by omega)
    refine ⟨by omega, ?_⟩
    rw [chainHistory_call]
    exact hafter
  | @act trace cfg addresses shared _ hact ih =>
    obtain ⟨hcounter, hconsistent⟩ := ih hcount
    obtain rfl : shared = (cfg.shared.delete addresses).2 := hact
    exact ⟨(cfg.shared.delete_counter addresses).trans hcounter, hconsistent.deletion addresses⟩

/-! ## No update is lost -/

/-- How often the executor committed anything. -/
def executorCommits (i : ι) (log : List (Entry ι)) : Nat :=
  log.countP fun
    | .commit j _ _ => decide (j = i)
    | .delete => false

/-- The executor told its callers that the operation was applied: in results
it handed out, or in those it ended with. -/
def ReportedApplied (jobs : ι → Job a) (trace : Trace ι)
    (cfg : Config ι Call Reply (Fallible Unit × ExecState) Store) (i : ι)
    (op : ParsedWrite) : Prop :=
  (∃ results result, .published results ∈ chainHistory jobs trace i ∧
      (op.index, result) ∈ results ∧ result.status = .applied) ∨
    ∃ s, (cfg.threads i).rest = .ret (.ok (), s) ∧ (s.results op.index).status = .applied

/-- The operation took effect in exactly one commit: the only one of the only
part that contains it. -/
def InOneCommit (jobs : ι → Job a) (initial : Option Document) (log : List (Entry ι)) (i : ι)
    (op : ParsedWrite) : Prop :=
  ∃ k p, (jobs i).chain.parts[k]? = some p ∧ op ∈ p.operations ∧
    (∀ k' p', (jobs i).chain.parts[k']? = some p' → op ∈ p'.operations → k' = k) ∧
    commitCount i k log = 1 ∧
    ∃ later earlier d d' took, log = later ++ .commit i k d' :: earlier ∧
      Replays jobs initial earlier d ∧ AppliesTo (jobs i).x p d d' took ∧ took op

omit [DecidableEq ι] in
theorem Replays.part_lt {d : Option Document} (h : Replays jobs initial log d) {k : Nat}
    {d' : Document} (hmem : .commit i k d' ∈ log) : k < (jobs i).chain.parts.length := by
  induction h with
  | start => cases hmem
  | delete _ ih => exact ih (by simpa using hmem)
  | @commit log d d₁ j m p took _ hpart _ ih =>
    rcases mem_cons.mp hmem with heq | hmem
    · cases heq
      exact (List.getElem?_eq_some_iff.mp hpart).1
    · exact ih hmem

/-- An executor whose chain is not cut commits at most once. -/
theorem Consistent.uncut (h : Consistent jobs initial bound store hist log)
    (hreturns : (jobs i).chain.hasReturns = false) : executorCommits i log ≤ 1 := by
  have hparts : (jobs i).chain.parts.length = 1 := by
    rw [WriteGroup.parts_of_single (by rw [WriteGroup.split_of_no_returns hreturns])]
    rfl
  have hsame : executorCommits i log = commitCount i 0 log := by
    refine countP_congr fun entry hmem => ?_
    cases entry with
    | delete => simp [Entry.isCommit]
    | commit j k d =>
      by_cases hj : j = i
      · subst hj
        have hlt := h.replays.part_lt hmem
        have hk : k = 0 := by omega
        simp [Entry.isCommit, hk]
      · simp [Entry.isCommit, hj]
  rw [hsame, h.counts i 0]
  exact h.once i 0

theorem Job.part_unique (j : Job a) {k k' : Nat} {p p' : WriteGroup}
    (hk : j.chain.parts[k]? = some p) (hk' : j.chain.parts[k']? = some p')
    (hop : op ∈ p.operations) (hop' : op ∈ p'.operations) : k' = k := by
  have hnd : (j.chain.parts.flatMap (·.operations)).Nodup := by
    rw [j.chain.parts_operations]
    exact j.distinct.of_map
  obtain ⟨-, hdisj⟩ := nodup_flatMap.mp hnd
  obtain ⟨hlt, rfl⟩ := List.getElem?_eq_some_iff.mp hk
  obtain ⟨hlt', rfl⟩ := List.getElem?_eq_some_iff.mp hk'
  rw [pairwise_iff_getElem] at hdisj
  rcases Nat.lt_trichotomy k k' with hlt₁ | heq | hlt₁
  · exact absurd hop' (hdisj k k' hlt hlt' hlt₁ hop)
  · exact heq.symm
  · exact absurd hop (hdisj k' k hlt' hlt hlt₁ hop')

/-- A handed-out success is backed by a commit. -/
theorem Consistent.published_applied (h : Consistent jobs initial bound store hist log)
    (hop : op ∈ (jobs i).chain.operations)
    {result : WriteResult} (hpub : .published results ∈ hist i)
    (hmem : (op.index, result) ∈ results) (happlied : result.status = .applied) :
    InOneCommit jobs initial log i op := by
  obtain ⟨later, es, hsplit⟩ := append_of_mem hpub
  have hsuffix : (.published results :: es) <:+ hist i := ⟨later, hsplit.symm⟩
  obtain ⟨ends, p, mid, r, hwithin, hconcluded, rfl⟩ := h.published i results es hsuffix
  obtain ⟨op', hop', heq⟩ := mem_map.mp hmem
  obtain ⟨hindex, rfl⟩ := Prod.mk.inj heq
  obtain rfl : op' = op := inj_on_of_nodup_map (jobs i).distinct
    (WriteGroup.parts_mem hwithin.mem hop') hop hindex
  obtain ⟨w, reply, rest, rfl, hreply, hstage, htook⟩ :=
    hconcluded.commit hwithin.distinct hop' happlied
  have hwrote : (.wrote w reply :: rest) <:+ hist i := (suffix_cons _ _).trans hsuffix
  obtain ⟨after, before, record, rfl, hreplays, hmatch, hcurrent⟩ :=
    h.landed i w reply rest hwrote hreply
  have hpart := hwithin.index.2
  rw [← hstage] at hpart
  refine ⟨stage rest, p, hpart, hop', fun k' p' hk' => (jobs i).part_unique hpart hk' hop', ?_,
    after, before, _, _, _, rfl, hreplays, htook record hcurrent hmatch, happlied⟩
  have hle := h.counts i (stage rest) ▸ h.once i (stage rest)
  have hpos :
      0 < commitCount i (stage rest) (after ++ .commit i (stage rest) w.document :: before) :=
    countP_pos_iff.mpr ⟨.commit i (stage rest) w.document,
      mem_append_right _ mem_cons_self, by simp [Entry.isCommit]⟩
  omega

theorem reportedApplied_published
    (hrun : Reaches memoryService (.start store₀ fun i => (jobs i).program) trace cfg)
    (hop : op ∈ (jobs i).chain.operations) (h : ReportedApplied jobs trace cfg i op) :
    ∃ results result, .published results ∈ chainHistory jobs trace i ∧
      (op.index, result) ∈ results ∧ result.status = .applied := by
  rcases h with h | ⟨s, hret, happlied⟩
  · exact h
  obtain ⟨ends, rest, mid, hparts, hchained, hkept, rfl, hmid⟩ :=
    hrun.ended (i := i) (jobs i).guarantee hret
  rw [← (jobs i).chain.parts_operations, hparts, append_nil] at hop
  obtain ⟨p, hp, hop⟩ := mem_flatMap.mp hop
  obtain ⟨e, he, rfl⟩ := mem_map.mp hp
  refine ⟨e.1.operations.map fun op => (op.index, e.2 op.index), e.2 op.index, ?_,
    mem_map.mpr ⟨op, hop, rfl⟩, ?_⟩
  · show publication e.1 e.2 ∈ (jobs i).focus.history (eventsOf i trace)
    rw [hmid]
    exact hchained.published he
  · rw [← hkept e he op hop]
    exact happlied

/-- No update is lost: as long as the counter does not wrap and does not
produce the revision the record started with, the stored record is at every
moment what the commits and deletes make of it, no part of a chain is
committed twice, and every operation reported applied took effect in exactly
one commit. -/
theorem executeWriteGroups_lose_no_update (jobs : ι → Job a) {store₀ : Store}
    {trace : Trace ι} {cfg : Config ι Call Reply (Fallible Unit × ExecState) Store}
    (hrun : Reaches memoryService (.start store₀ fun i => (jobs i).program) trace cfg)
    (hwrap : store₀.nextRevision + appliedWrites trace < 2 ^ 64)
    (hseed : ∀ record, store₀.records a = some record →
      NotAhead store₀.nextRevision (store₀.nextRevision + appliedWrites trace) record.revision) :
    let initial := (store₀.records a).map (·.document)
    let log := entries jobs trace
    Replays jobs initial log ((cfg.shared.records a).map (·.document)) ∧
      (∀ i k, commitCount i k log ≤ 1) ∧
      (∀ i, (jobs i).chain.hasReturns = false → executorCommits i log ≤ 1) ∧
      ∀ i, ∀ op ∈ (jobs i).chain.operations, ReportedApplied jobs trace cfg i op →
        InOneCommit jobs initial log i op := by
  intro initial log
  obtain ⟨-, h⟩ := consistent_of_reaches jobs hrun hwrap hseed (Nat.le_refl _)
  refine ⟨h.replays, fun i k => ?_, fun i => h.uncut, fun i op hop hreported => ?_⟩
  · rw [h.counts i k]
    exact h.once i k
  · obtain ⟨results, result, hpub, hmem, happlied⟩ := reportedApplied_published hrun hop hreported
    exact h.published_applied hop hpub hmem happlied

end Invariant

/-! ## Runs of two executors -/

def appendMerge (index : Nat) (address : Address) (payload : List UInt8) : ParsedWrite :=
  ⟨index, address, false, .merge ⟨⟨.json, payload⟩, fun _ current incoming =>
    .ok ⟨.json, (current.map (·.payload)).getD [] ++ incoming.payload⟩⟩⟩

/-- An executor with two attempts for one chain. -/
def Job.alone (chain : WriteGroup) (hd : chain.Distinct) : Job chain.address :=
  let x : WriteExecution := ⟨1000, 2, none, false, false, ⟨0, 0⟩⟩
  { x := x
    fuel := 1
    groups := [chain]
    chain := chain
    s₀ := { ExecState.initial x with
      returns := some ⟨fun _ => 1000, fun _ => 1000, fun _ => 0⟩ }
    address := rfl
    distinct := hd
    fresh := fun _ _ => rfl
    one := .here rfl (by simp) }

/-- One executor appends to the record, another one replaces it. -/
def racers : Bool → Job ⟨[97]⟩
  | true => .alone (.single (appendMerge 0 ⟨[97]⟩ [65])) (nodup_singleton _)
  | false => .alone (.single (upsert 0 ⟨[97]⟩ [66])) (nodup_singleton _)

/-- The record is replaced between the snapshot and the commit of the merge,
so the commit is rejected and the replacement stays. -/
theorem executeWriteGroups_lose_no_update_race :
    ∃ trace cfg, Reaches memoryService (.start .empty fun i => (racers i).program) trace cfg ∧
      Replays racers none (entries racers trace) ((cfg.shared.records ⟨[97]⟩).map (·.document)) ∧
      entries racers trace = [.commit false 0 ⟨.json, [66]⟩] := by
  have h := @Reaches.start Bool Call (List Address) Store _ Reply _ memoryService
    (.start .empty fun i => (racers i).program)
  have h := Reaches.call (i := true) (r := (none : Option ContextErr)) h rfl rfl
  have h := Reaches.call (i := true) (r := (none : Option ContextErr)) h rfl rfl
  have h := Reaches.call (i := true) (r := idlePool) h rfl rfl
  have h := Reaches.call (i := true) (r := ()) h rfl rfl
  have h := Reaches.call (i := true) h rfl ⟨rfl, [], rfl⟩
  have h := Reaches.call (i := false) h rfl ⟨rfl, rfl⟩
  have h := Reaches.call (i := true) (r := fun _ => false) h rfl rfl
  have h := Reaches.call (i := true) (r := (none : Option ContextErr)) h rfl rfl
  have h := Reaches.call (i := true) (r := idlePool) h rfl rfl
  have h := Reaches.call (i := true) (r := ()) h rfl rfl
  have h := Reaches.call (i := true) h rfl ⟨rfl, rfl⟩
  refine ⟨_, _, h, (executeWriteGroups_lose_no_update racers h ?_ ?_).1, rfl⟩
  · decide
  · intro record hrecord
    cases hrecord

/-- The record starts with a revision that the counter has yet to produce. -/
def seededAhead : Store :=
  Store.empty.seed ⟨[97]⟩ ⟨⟨.json, [48]⟩, bigEndian64 1⟩

/-- A chain of two puts that both return their document. -/
def returning : Unit → Job ⟨[97]⟩ := fun _ =>
  .alone
    { address := ⟨[97]⟩
      operations := [{ upsert 0 ⟨[97]⟩ [66] with returnDocument := true },
        { upsert 1 ⟨[97]⟩ [67] with returnDocument := true }]
      nonempty := by simp
      sameAddress := by simp [upsert] } (by simp [WriteGroup.Distinct, upsert])

/-- The last commit ran on another document than the one it replaced. -/
theorem racers_not_replays {d : Option Document} :
    ¬ Replays racers (some ⟨.json, [48]⟩)
      [.commit true 0 ⟨.json, [48, 65]⟩, .commit false 0 ⟨.json, [66]⟩, .delete] d := by
  intro h
  cases h with
  | @commit log before _ _ _ p took h hpart happlies =>
    obtain rfl : before = some ⟨.json, [66]⟩ := by
      cases h
      rfl
    cases hpart
    obtain ⟨ctx, kept, hadmits, -, hdocument, -⟩ := happlies
    obtain rfl : kept = [appendMerge 0 ⟨[97]⟩ [65]] := hadmits
    cases hdocument

/-- Two ways in which an unrestricted statement fails. A seeded revision can
come up again after a delete, and then the merge replaces a document it has
not seen; and a chain that returns documents is committed in several steps. -/
theorem executeWriteGroups_lose_update_reused_revision :
    (∃ trace cfg,
      Reaches memoryService (.start seededAhead fun i => (racers i).program) trace cfg ∧
        seededAhead.nextRevision + appliedWrites trace < 2 ^ 64 ∧
        ¬ Replays racers ((seededAhead.records ⟨[97]⟩).map (·.document)) (entries racers trace)
          ((cfg.shared.records ⟨[97]⟩).map (·.document))) ∧
      ∃ trace cfg,
        Reaches memoryService (.start .empty fun i => (returning i).program) trace cfg ∧
          appliedWrites trace < 2 ^ 64 ∧ executorCommits () (entries returning trace) = 2 := by
  constructor
  · have h := @Reaches.start Bool Call (List Address) Store _ Reply _ memoryService
      (.start seededAhead fun i => (racers i).program)
    have h := Reaches.call (i := true) (r := (none : Option ContextErr)) h rfl rfl
    have h := Reaches.call (i := true) (r := (none : Option ContextErr)) h rfl rfl
    have h := Reaches.call (i := true) (r := idlePool) h rfl rfl
    have h := Reaches.call (i := true) (r := ()) h rfl rfl
    have h := Reaches.call (i := true) h rfl ⟨rfl, [], rfl⟩
    have h := Reaches.act (l := [⟨[97]⟩]) h rfl
    have h := Reaches.call (i := false) h rfl ⟨rfl, rfl⟩
    have h := Reaches.call (i := true) (r := fun _ => false) h rfl rfl
    have h := Reaches.call (i := true) (r := (none : Option ContextErr)) h rfl rfl
    have h := Reaches.call (i := true) (r := idlePool) h rfl rfl
    have h := Reaches.call (i := true) (r := ()) h rfl rfl
    have h := Reaches.call (i := true) h rfl ⟨rfl, rfl⟩
    refine ⟨_, _, h, ?_, racers_not_replays⟩
    decide
  · have h := @Reaches.start Unit Call (List Address) Store _ Reply _ memoryService
      (.start .empty fun i => (returning i).program)
    have h := Reaches.call (i := ()) h rfl ⟨rfl, rfl⟩
    have h := Reaches.call (i := ()) (r := ()) h rfl rfl
    have h := Reaches.call (i := ()) h rfl ⟨rfl, rfl⟩
    refine ⟨_, _, h, ?_, rfl⟩
    decide

end Sink
