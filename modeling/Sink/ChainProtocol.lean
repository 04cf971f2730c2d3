import Sink.Footprint
import Sink.Lib.Once

/-!
# The life of one chain

An execution handles many groups at once: chunks, early commits and retries
interleave their reads and writes. Seen from one record it is simple. The
observer `Focus.record` keeps of an execution only what concerns one record
address and one set of operations, and the relations below say what that
view can look like:

- `Attempts`: some snapshots were deferred and some attempts were answered
  with a precondition failure;
- `Proposes`: what may be written next;
- `Settlement`: how a conditional group ended, and with which results;
- `Concluded`: the same for a group on either path.

These are the abstract account of a chain. That the executor follows it is
proved in `Sink.ChainRun` and `Sink.ChainWaves`.
-/

namespace Sink

open Interact

/-! ## What is watched -/

/-- A record address and the indexes of operations on it. -/
structure Focus where
  address : Address
  indexes : List Nat

inductive ChainEvent where
  /-- The record was read. -/
  | snapshot (stored : Storage.ReadResult)
  /-- The group was evaluated. -/
  | evaluated (ctx : Nat → Bool)
  /-- The record was written and the storage answered. -/
  | wrote (op : Storage.WriteOperation) (stored : Storage.WriteResult)
  /-- The record was written and the answer is unusable. -/
  | lost (op : Storage.WriteOperation)
  /-- Final results were handed out. -/
  | published (results : List (Nat × WriteResult))

/-- Events, the newest first. -/
abbrev History := List ChainEvent

/-- What one answered call adds to the history of the focus. -/
def Focus.record (f : Focus) (es : History) : (c : Call) → Reply c → History
  | .read ops _, reply =>
    match reply.1 with
    | .error _ => es
    | .ok results =>
      match (ops.zip results).find? fun p => decide (p.1.address = f.address) with
      | none => es
      | some p => .snapshot p.2 :: es
  | .evaluate address, ctx => if address = f.address then .evaluated ctx :: es else es
  | .write ops _, reply =>
    match ops.find? fun op => decide (op.address = f.address) with
    | none => es
    | some op =>
      match reply with
      | .error _ => .lost op :: es
      | .ok results =>
        if results.length ≠ ops.length then .lost op :: es
        else
          match (ops.zip results).find? fun p => decide (p.1.address = f.address) with
          | none => es
          | some p => .wrote p.1 p.2 :: es
  | .complete results, _ =>
    if results.any fun p => decide (p.1 ∈ f.indexes) then .published results :: es else es
  | _, _ => es

def Focus.history (f : Focus) (h : Log) : History := observe f.record [] h

/-- The group is about another record and other operations. -/
def Focus.Apart (f : Focus) (g : WriteGroup) : Prop :=
  g.address ≠ f.address ∧ ∀ op ∈ g.operations, op.index ∉ f.indexes

abbrev Focus.Avoids (f : Focus) (gs : List WriteGroup) : Prop := ∀ g ∈ gs, f.Apart g

/-- The group is about the record and some of the operations in focus. -/
structure Focus.Holds (f : Focus) (g : WriteGroup) : Prop where
  address : g.address = f.address
  indexes : ∀ op ∈ g.operations, op.index ∈ f.indexes

/-! ## Evaluations -/

/-- Evaluating the group against a snapshot turned the results `before` into
`after` and yielded the candidate. -/
def WriteExecution.Evaluates (x : WriteExecution) (g : WriteGroup) (ctx : Nat → Bool)
    (stored : Storage.ReadResult) (before : Results) (candidate : Option Storage.WriteOperation)
    (after : Results) : Prop :=
  match x.budgets with
  | none => prepareWriteGroup ctx g.operations stored before = (candidate, after)
  | some _ => ∃ inputs outputs,
      let prepared := prepareBatchedWriteGroup ctx (ownerOf x.budgets) g.operations stored
        before inputs outputs
      prepared.candidate = candidate ∧ prepared.results = after

/-- The two maps agree on the group's operations. -/
def Agree (g : WriteGroup) (r r' : Results) : Prop :=
  ∀ op ∈ g.operations, r op.index = r' op.index

/-- No operation of the group carries anything of a commit. -/
def CleanOn (g : WriteGroup) (r : Results) : Prop :=
  ∀ op ∈ g.operations, (r op.index).Clean

/-- The group's results are as allocated. -/
def Fresh (g : WriteGroup) (r : Results) : Prop :=
  ∀ op ∈ g.operations, r op.index = .new op.index

/-! ## Histories of a group -/

section Histories

variable (x : WriteExecution) (g : WriteGroup) (start : History)

/-- `Attempts x g start n es`: since `start` the group was deferred any number
of times and lost `n` commits to other writers. -/
inductive Attempts : Nat → History → Prop where
  | start : Attempts 0 start
  | deferred {n es stored : _}
      (h : Attempts n es) (hdef : WriteExecution.isDeferred stored = true) :
      Attempts n (.snapshot stored :: es)
  | conflict {n es ctx stored before after w reply : _}
      (h : Attempts n es) (hclean : CleanOn g before)
      (heval : x.Evaluates g ctx stored before (some w) after)
      (hreply : reply.status = .preconditionFailed) :
      Attempts (n + 1) (.wrote w reply :: .evaluated ctx :: .snapshot stored :: es)

/-- What the group may write next. -/
inductive Proposes : History → Storage.WriteOperation → Prop where
  /-- A direct group writes its last put at once. -/
  | direct {put : _} (hdirect : g.directPut = true) (hput : g.lastPut? = some put) :
      Proposes start ⟨g.address, put.document, put.precondition⟩
  /-- Any other group writes what it evaluated on the snapshot just read. -/
  | evaluated {n es ctx stored before after w : _}
      (h : Attempts x g start n es) (hclean : CleanOn g before)
      (heval : x.Evaluates g ctx stored before (some w) after) :
      Proposes (.evaluated ctx :: .snapshot stored :: es) w

/-- How a conditional group ends: its history since `start`, without the
publication, and its final results. -/
inductive Settlement : History → Results → Prop where
  /-- The commit was answered, and not by a precondition failure. -/
  | answered {n es ctx stored before after w reply : _}
      (h : Attempts x g start n es) (hn : n < x.maxMergeAttempts) (hclean : CleanOn g before)
      (heval : x.Evaluates g ctx stored before (some w) after)
      (hreply : reply.status ≠ .preconditionFailed) :
      Settlement (.wrote w reply :: .evaluated ctx :: .snapshot stored :: es)
        (attachWriteDocument g.operations (applyWriteGroupResult g.operations after reply)
          w.document)
  /-- The evaluation left nothing to write. -/
  | nothing {n es ctx stored before after : _}
      (h : Attempts x g start n es) (hn : n < x.maxMergeAttempts) (hclean : CleanOn g before)
      (heval : x.Evaluates g ctx stored before none after) :
      Settlement (.evaluated ctx :: .snapshot stored :: es) after
  /-- The candidate was refused before it was written. -/
  | refused {n es ctx stored before after w err : _}
      (h : Attempts x g start n es) (hn : n < x.maxMergeAttempts) (hclean : CleanOn g before)
      (heval : x.Evaluates g ctx stored before (some w) after)
      (herr : err.errorDetails.1 = .resourceExhausted) :
      Settlement (.evaluated ctx :: .snapshot stored :: es)
        (applyWriteGroupResult g.operations after (.ofError err))
  /-- The working set of an attempt could not be reserved. -/
  | exhausted {n es before err : _}
      (h : Attempts x g start n es) (hn : n < x.maxMergeAttempts) (hclean : CleanOn g before) :
      Settlement es
        (updateEach (·.index) (fun _ => WriteExecution.exhaustedResult err) g.operations before)
  /-- Every attempt lost its commit to another writer. -/
  | conflict {es before : _}
      (h : Attempts x g start x.maxMergeAttempts es) (hclean : CleanOn g before) :
      Settlement es
        (updateEach (·.index) (fun _ => WriteExecution.conflictResult) g.operations before)

/-- How a group ends, on either path: its history since `start`, without the
publication, and its final results. -/
inductive Concluded : History → Results → Prop where
  | conditional {es r : _} (h : Settlement x g start es r) :
      Concluded es r
  /-- A direct group was written and the storage answered. -/
  | written {put before reply : _}
      (hd : g.directPut = true) (hput : g.lastPut? = some put) (hfresh : Fresh g before) :
      Concluded (.wrote ⟨g.address, put.document, put.precondition⟩ reply :: start)
        (attachWriteDocument g.operations (applyWriteGroupResult g.operations before reply)
          put.document)
  /-- The returned documents of a direct group did not fit. -/
  | refused {before err : _} (hd : g.directPut = true)
      (hfresh : Fresh g before) (herr : err.errorDetails.1 = .resourceExhausted) :
      Concluded start (applyWriteGroupResult g.operations before (.ofError err))

/-- The results handed out for the group. -/
def publication (r : Results) : ChainEvent :=
  .published (g.operations.map fun op => (op.index, r op.index))

/-- The group has its final results, and they were published once. -/
def Settled (r : Results) (es : History) : Prop :=
  ∃ es' r', Settlement x g start es' r' ∧ Agree g r r' ∧ es = publication g r' :: es'

/-- The group waits for an attempt and lost `n` commits so far. -/
def Pending (n : Nat) (r : Results) (es : History) : Prop :=
  Attempts x g start n es ∧ CleanOn g r

/-- The group was evaluated and waits for its commit. -/
def Ready (n : Nat) (w : Storage.WriteOperation) (r : Results) (es : History) : Prop :=
  ∃ ctx stored es' before after, es = .evaluated ctx :: .snapshot stored :: es' ∧
    Attempts x g start n es' ∧ CleanOn g before ∧
    x.Evaluates g ctx stored before (some w) after ∧ Agree g r after

/-- Nothing was published since `start`. -/
def Unpublished (es : History) : Prop :=
  ∃ t, es = t ++ start ∧ ∀ e ∈ t, ∀ results, e ≠ .published results

/-- What an execution that stopped with an error leaves of a group. -/
def Interrupted (r : Results) (es : History) : Prop :=
  Settled x g start r es ∨ Unpublished start es

end Histories

end Sink
