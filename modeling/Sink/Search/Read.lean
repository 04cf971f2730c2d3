import Sink.Search.Client

/-!
# Search reads

`search/read.go`. The operations whose addresses can be resolved are read with
one multi-get. If its answer is too large they are read in halves, and so on down
to single operations; the batches that are still to be read are a stack.

`pending` is the stack with its top first. The results are a function of the
operation's index, and the budgets are cells of a `ReserveState`; a `Read` without
a budget makes one, in a cell of its own.
-/

namespace Sink.SearchStore

open Interact Function

structure ReadOperation where
  address : Address
  budget : Option ReadBudget
deriving Repr, DecidableEq

structure ReadRequest where
  operations : List ReadOperation
  budget : Option ReadBudget
deriving Repr, DecidableEq

/-! ## Results -/

def zeroRead : Storage.ReadResult := ⟨.unsupported 0, .empty, [], none⟩

def setReadError (result : Storage.ReadResult) (err : GoError) : Storage.ReadResult :=
  { result with status := .failed, err := some (backendError (some err)) }

/-- `bytes.Equal(bytes.TrimSpace(source), []byte("null"))`. -/
def isNull (source : List UInt8) : Bool :=
  (List.range source.length).any fun i =>
    Scan.blank (source.take i) && (source.drop i).take 4 == lit "null" &&
      Scan.blank (source.drop (i + 4))

def applyMultiGetDocument (result : Storage.ReadResult) (document : MultiGetDocument)
    (budget : ReadBudget) (st : ReserveState) : Storage.ReadResult × ReserveState :=
  match document.error with
  | some detail =>
    if detail.isIndexNotFound then ({ result with status := .notFound }, st)
    else (setReadError result detail.error, st)
  | none =>
    match document.found with
    | none => (setReadError result (.text (lit "search document has no found flag")), st)
    | some false => ({ result with status := .notFound }, st)
    | some true =>
      if document.source = [] ∨ isNull document.source then
        (setReadError result (.text (lit "search document has no _source")), st)
      else
        match document.sequence, document.primaryTerm with
        | some sequence, some primaryTerm =>
          match encodeRevision sequence primaryTerm with
          | .error err => (setReadError result err, st)
          | .ok revision =>
            match budget.reserve document.source.length st with
            | (some err, st) => (setReadError result err, st)
            | (none, st) =>
              ({ result with
                status := .found
                document := ⟨.json, document.source⟩
                revision }, st)
        | _, _ =>
          (setReadError result
            (.text (lit "search document has no sequence number or primary term")), st)

/-- The error of the operations of a batch that failed. -/
def Failure.readError (failure : Failure) : GoError :=
  if failure.tooLarge then .operation .resourceExhausted false failure.err else failure.err

/-- What a batch brings for one of its operations. -/
inductive ReadFate where
  | document (found : MultiGetDocument)
  | failed (failure : Failure)

def ReadFate.apply (fate : ReadFate) (budget : ReadBudget) (result : Storage.ReadResult)
    (st : ReserveState) : Storage.ReadResult × ReserveState :=
  match fate with
  | .document found => applyMultiGetDocument result found budget st
  | .failed failure => (setReadError result failure.readError, st)

def fates (batch : List ReadWork) : Except Failure (List MultiGetDocument) → List ReadFate
  | .ok documents => documents.map .document
  | .error failure => batch.map fun _ => .failed failure

/-! ## The loop -/

/-- The results so far, and the budgets. -/
structure Progress where
  results : Nat → Storage.ReadResult
  reserve : ReserveState

section

variable (budgetOf : Nat → ReadBudget)

/-- The result of one operation. -/
def settleRead (progress : Progress) (read : ReadWork × ReadFate) : Progress :=
  let (result, reserve) := read.2.apply (budgetOf read.1.resultIndex)
    (progress.results read.1.resultIndex) progress.reserve
  ⟨update progress.results read.1.resultIndex result, reserve⟩

/-- The loops over the operations of a batch. -/
def settleBatch (batch : List ReadWork) (answer : Except Failure (List MultiGetDocument))
    (progress : Progress) : Progress :=
  (batch.zip (fates batch answer)).foldl (settleRead budgetOf) progress

variable (s : Store)

/-- The loop of `Read` over the pending batches. -/
def readPending : Nat → List (List ReadWork) → Progress → Prog Call Reply Progress
  | _, [], progress => .ret progress
  | 0, _ :: _, _ => .diverge
  | fuel + 1, batch :: pending, progress =>
    (multiGet s batch true).bind fun
      | .error failure =>
        if failure.tooLarge ∧ 1 < batch.length then
          .call .ctxErr fun ctx =>
            match (ctx : Option ContextErr) with
            | none =>
              let middle := batch.length / 2
              readPending fuel (batch.take middle :: batch.drop middle :: pending) progress
            | some _ =>
              readPending fuel pending (settleBatch budgetOf batch (.error failure) progress)
        else readPending fuel pending (settleBatch budgetOf batch (.error failure) progress)
      | .ok documents =>
        readPending fuel pending (settleBatch budgetOf batch (.ok documents) progress)

end

variable (s : Store)

/-- The loop of `Read` over the operations, from index `i` on. -/
def resolveReads : Nat → List ReadOperation → (Nat → Storage.ReadResult) →
    List ReadWork × (Nat → Storage.ReadResult)
  | _, [], results => ([], results)
  | i, operation :: rest, results =>
    match s.resolve operation.address with
    | .error err =>
      resolveReads (i + 1) rest (update results i (setReadError (results i) err))
    | .ok document =>
      let (works, results) := resolveReads (i + 1) rest results
      (⟨i, document⟩ :: works, results)

namespace ReadRequest

variable (req : ReadRequest)

/-- The budget of the request; `own` is the cell of one that `Read` makes. -/
def sharedBudget (own : Nat) : ReadBudget := req.budget.getD (.cell own)

def startReserve (own : Nat) (st : ReserveState) : ReserveState :=
  match req.budget with
  | some _ => st
  | none => { st with cells := update st.cells own (.new defaultMaxReadBytes) }

/-- The budget of the operation with index `i`. -/
def budgetOf (own i : Nat) : ReadBudget :=
  ((req.operations[i]?).bind ReadOperation.budget).getD (req.sharedBudget own)

end ReadRequest

/-- `Read`: the results and the budgets. -/
def read (fuel : Nat) (req : ReadRequest) (own : Nat) (st : ReserveState) :
    Prog Call Reply (List Storage.ReadResult × ReserveState) :=
  let (works, results) := resolveReads s 0 req.operations fun _ => zeroRead
  let progress : Progress := ⟨results, req.startReserve own st⟩
  let finished := if works = [] then .ret progress
    else readPending (req.budgetOf own) s fuel [works] progress
  finished.bind fun progress =>
    .ret ((List.range req.operations.length).map progress.results, progress.reserve)

end Sink.SearchStore
