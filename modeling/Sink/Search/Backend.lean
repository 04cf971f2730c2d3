import Sink.Search.Write

/-!
# A search backend among other writers

The world a search store writes to. Other writers may change any document at
any time: between two calls, and between two lines of one bulk request. Of the
backend three things are assumed. An action that it does not apply leaves the
document alone; an action with a sequence number and a primary term is applied
only to a document that has just these, and is answered with 409 otherwise; and
an answer that the store can read tells for every line whether it was applied.

Nothing is assumed about multi-gets, and an exchange can fail at any moment: a
bulk request may be applied in whole or in part and its answer be lost.

The world keeps a log of the multi-gets and of what became of every line.
-/

namespace Sink.SearchStore

open Interact

/-- A document as the backend stores it. -/
structure Stored where
  sequence : Int64
  primaryTerm : Int64
  source : List UInt8
deriving Repr, DecidableEq

abbrev Documents := ResolvedDocument → Option Stored

/-- What became of a line: the document at the moment of the action, and
directly after it. -/
structure Outcome where
  before : Option Stored
  after : Option Stored
  applied : Bool
deriving Repr, DecidableEq

/-- A line of a bulk request, the write it stands for, what the backend did and
what it answered, if the store could read it. -/
structure Delivery where
  work : WriteWork
  line : BulkLine
  outcome : Outcome
  answer : Option BulkItem
deriving Repr, DecidableEq

/-- The action carries `if_seq_no` and `if_primary_term`. -/
def BulkLine.Conditional (line : BulkLine) : Prop :=
  line.metadata.sequence.isSome = true ∧ line.metadata.primaryTerm.isSome = true

/-- The document has the numbers the action carries. -/
def BulkLine.Met (line : BulkLine) (stored : Option Stored) : Prop :=
  ∃ document, stored = some document ∧ line.metadata.sequence = some document.sequence ∧
    line.metadata.primaryTerm = some document.primaryTerm

/-- An item that reports success, with the numbers of the new version. -/
def BulkItem.Succeeds (item : BulkItem) : Prop :=
  succeeded item.status = true ∧ item.error = none ∧
    ∃ sequence primaryTerm, item.sequence = some sequence ∧ item.primaryTerm = some primaryTerm ∧
      0 ≤ sequence ∧ 0 < primaryTerm

namespace Delivery

variable (d : Delivery)

/-- What the backend promises about one line. -/
structure Lawful : Prop where
  refused : d.outcome.applied = false → d.outcome.after = d.outcome.before
  guarded : d.line.Conditional → d.outcome.applied = true → d.line.Met d.outcome.before
  reported : ∀ item, d.answer = some item → (d.outcome.applied = true ↔ item.Succeeds)
  conflict : ∀ item, d.answer = some item → d.line.Conditional → ¬ d.line.Met d.outcome.before →
    item.status = 409

/-- The action was refused because the record had changed. -/
def LostRace : Prop := ∃ item, d.answer = some item ∧ item.status = 409

/-- The action does not bring a document into being. -/
def CreatesNothing : Prop :=
  d.outcome.after ≠ d.outcome.before → d.outcome.before.isSome = true

variable {d}

/-- A conditional action changes only a document that is there. -/
theorem Lawful.createsNothing (h : d.Lawful) (hconditional : d.line.Conditional) :
    d.CreatesNothing := by
  intro hchanged
  cases happlied : d.outcome.applied with
  | false => exact absurd (h.refused happlied) hchanged
  | true =>
    obtain ⟨document, hbefore, -⟩ := h.guarded hconditional happlied
    rw [hbefore]
    rfl

theorem Lawful.not_applied (h : d.Lawful) (hlost : d.LostRace) : d.outcome.applied = false := by
  obtain ⟨item, hanswer, hstatus⟩ := hlost
  rw [Bool.eq_false_iff]
  intro happlied
  have hsuccess := ((h.reported item hanswer).mp happlied).1
  rw [hstatus] at hsuccess
  cases hsuccess

end Delivery

inductive Entry where
  | checked (works : List ReadWork) (documents : List MultiGetDocument)
  | sent (deliveries : List Delivery)

structure Backend where
  documents : Documents
  log : List Entry

def readItems (s : Store) (request : BulkRequest)
    (reply : Except Failure (ApiResponse (List (List (GoString × BulkItem))))) :
    Option (List BulkItem) :=
  match reply with
  | .error _ => none
  | .ok response => (bulkItems s request response).toOption

def readDocuments (s : Store) (works : List ReadWork)
    (reply : Except Failure (ApiResponse (List MultiGetDocument))) :
    Option (List MultiGetDocument) :=
  match reply with
  | .error _ => none
  | .ok response => (multiGetDocuments s works response).toOption

/-- `deliveries` is what becomes of a request that is answered like this. -/
structure Delivers (s : Store) (works : List WriteWork) (request : BulkRequest)
    (reply : Except Failure (ApiResponse (List (List (GoString × BulkItem)))))
    (deliveries : List Delivery) : Prop where
  works : deliveries.map Delivery.work = works
  lines : deliveries.map Delivery.line = request.payload
  answers : deliveries.map Delivery.answer =
    match readItems s request reply with
    | some items => items.map some
    | none => deliveries.map fun _ => none

/-- The deliveries for the operation with an index. -/
def Entry.sends (index : Nat) : Entry → List Delivery
  | .checked _ _ => []
  | .sent deliveries => deliveries.filter fun d => decide (d.work.resultIndex = index)

/-- How often an operation was sent, latest first. -/
def sends (index : Nat) (log : List Entry) : List Delivery := log.flatMap (Entry.sends index)

def MultiGetDocument.SaysAbsent (document : MultiGetDocument) : Prop :=
  (∃ detail, document.error = some detail ∧ detail.isIndexNotFound = true) ∨
    (document.error = none ∧ document.found = some false)

def FoundAbsent (document : ResolvedDocument) (log : List Entry) : Prop :=
  ∃ works documents, Entry.checked works documents ∈ log ∧
    ∃ read answer, (read, answer) ∈ works.zip documents ∧ read.document = document ∧
      answer.SaysAbsent

theorem FoundAbsent.mono {document : ResolvedDocument} {log log' : List Entry}
    (h : FoundAbsent document log) (hlog : log <:+ log') : FoundAbsent document log' := by
  obtain ⟨works, documents, hmem, hread⟩ := h
  exact ⟨works, documents, hlog.subset hmem, hread⟩

@[simp] theorem sends_sent (index : Nat) (deliveries : List Delivery) (log : List Entry) :
    sends index (.sent deliveries :: log) =
      (deliveries.filter fun d => decide (d.work.resultIndex = index)) ++ sends index log := rfl

/-- How the result of a Replace follows from what was sent for it; `absent` is
that a check found its document, or the index, absent. -/
structure Replaced (absent : Prop) (index : Nat) (log : List Entry)
    (result : Storage.WriteResult) : Prop where
  createsNothing : ∀ d ∈ sends index log, d.CreatesNothing
  applied : result.status = .applied ↔
    ∃ d ∈ sends index log, d.outcome.applied = true ∧ d.answer.isSome = true
  preconditionFailed : result.status = .preconditionFailed → absent
  attempts : (sends index log).length ≤ maxExistingWriteAttempts
  conflict : (sends index log).length = maxExistingWriteAttempts →
    (∀ d ∈ sends index log, d.LostRace) →
      result.status = .failed ∧ errorDetails result.err = (.conflict, true)

end Sink.SearchStore
