import Sink.Data

/-!
# Byte budgets

`internal/storage/read_budget.go`. A `BudgetCell` is an ordinary budget: a
counter guarded by its own mutex. Composite budgets share cells, so they
name them by index into a `ReserveState`, which also carries the answers
the process memory pool will give to the growth requests of a managed
budget, in order (a missing answer is a grant).

`Reserve` charges the payload plus a fixed overhead for the envelope. Only
an ordinary cell refuses; composites decide what a refusal means.
-/

namespace Sink

def defaultMaxReadBytes : Int := 33554432

/-- Room for the per-operation protobuf envelope and revision. -/
def readOverhead : Int := 128

/-- An ordinary `ReadBudget`. -/
structure BudgetCell where
  remaining : Int
  maximum : Int
deriving Repr, DecidableEq

namespace BudgetCell

/-- `NewReadBudget`. -/
def new (maxBytes : Int) : BudgetCell :=
  let maxBytes := if maxBytes ≤ 0 then defaultMaxReadBytes else maxBytes
  ⟨maxBytes, maxBytes⟩

/-- `NewTrackedReadBudget`, which accepts an explicit zero grant. -/
def newTracked (maxBytes : Int) : BudgetCell := ⟨max 0 maxBytes, max 0 maxBytes⟩

variable (b : BudgetCell) (size : Int)

/-- The refusal of a cell; it is retryable when an empty cell would fit it. -/
def refusal : GoError :=
  .operation .resourceExhausted (decide (0 ≤ size) && decide (size ≤ b.maximum - readOverhead))
    (.text (lit "read response exceeds its byte budget; request fewer or smaller records"))

/-- Whether the charge is refused. -/
def refuses : Prop :=
  size < 0 ∨ b.remaining < readOverhead ∨ b.remaining - readOverhead < size

instance (b : BudgetCell) (size : Int) : Decidable (b.refuses size) :=
  inferInstanceAs (Decidable (_ ∨ _ ∨ _))

def charge : BudgetCell :=
  { b with remaining := b.remaining - (size + readOverhead) }

/-- `Reserve` on an ordinary budget. -/
def reserve : Fallible BudgetCell :=
  if b.refuses size then .error (b.refusal size) else .ok (b.charge size)

theorem reserve_error {b : BudgetCell} {size : Int} {e : GoError}
    (h : b.reserve size = .error e) : b.refuses size ∧ e = b.refusal size := by
  unfold reserve at h
  split at h
  · exact ⟨‹_›, (Except.error.inj h).symm⟩
  · cases h

theorem reserve_ok {b b' : BudgetCell} {size : Int} (h : b.reserve size = .ok b') :
    ¬ b.refuses size ∧ b' = b.charge size := by
  unfold reserve at h
  split at h
  · cases h
  · exact ⟨‹_›, (Except.ok.inj h).symm⟩

end BudgetCell

inductive ReadBudget where
  | cell (id : Nat)
  /-- `NewSharedReadBudget` over ordinary budgets. -/
  | shared (ids : List Nat)
  /-- `NewWorkingSetReadBudget`. -/
  | workingSet (caller : ReadBudget) (working : Nat)
  /-- `WithMemoryBudget` with a lease. -/
  | memory (caller : ReadBudget)
deriving Repr, DecidableEq

/-- The mutable part behind the budgets of one storage call. -/
structure ReserveState where
  cells : Nat → BudgetCell
  lease : List (Option GoError)

namespace ReserveState

/-- Charge the cell `id`. -/
def reserveCell (st : ReserveState) (id : Nat) (size : Int) : Option GoError × ReserveState :=
  match (st.cells id).reserve size with
  | .error e => (some e, st)
  | .ok b => (none, { st with cells := Function.update st.cells id b })

/-- Charge every cell of a shared budget: whether one accepted, and the last
refusal. -/
def reserveShared (size : Int) :
    List Nat → ReserveState → Bool → Option GoError → Bool × Option GoError × ReserveState
  | [], st, accepted, failure => (accepted, failure, st)
  | id :: ids, st, accepted, failure =>
    match st.reserveCell id size with
    | (some e, st) => reserveShared size ids st accepted (some e)
    | (none, st) => reserveShared size ids st true failure

end ReserveState

namespace ReadBudget

/-- `ReadBudget.Reserve`; `none` is success. -/
def reserve : ReadBudget → Int → ReserveState → Option GoError × ReserveState
  | .cell id, size, st => st.reserveCell id size
  | .shared [], size, st => (some ((⟨0, 0⟩ : BudgetCell).refusal size), st)
  | .shared (id :: ids), size, st =>
    let (accepted, failure, st) := st.reserveShared size (id :: ids) false none
    if accepted then (none, st) else (failure, st)
  | .workingSet caller working, size, st =>
    match st.reserveCell working size with
    | (some e, st) =>
      if 0 ≤ size ∧ size ≤ (st.cells working).maximum - readOverhead then
        (some (.sentinel .readWorkingSetFull), st)
      else (some e, st)
    | (none, st) =>
      match caller.reserve size st with
      | (some e, st) =>
        let b := st.cells working
        let b := { b with remaining := b.remaining + (size + readOverhead) }
        (some e, { st with cells := Function.update st.cells working b })
      | (none, st) => (none, st)
  | .memory caller, size, st =>
    match caller.reserve size st with
    | (some e, st) => (some e, st)
    | (none, st) =>
      match st.lease with
      | [] => (none, st)
      | answer :: lease => (answer.map resourceExhaustedError, { st with lease })

end ReadBudget

end Sink
