import Sink.SnapshotBudget

/-!
# Composite budgets

All compositions that `storage/read_budget.go` offers, in the nestings that the
service builds, with the bytes of the leases that a managed budget grows. A
budget is one cell, or the cells of several callers; other callers' snapshots
share a working set with it; process memory is asked last.

What a reservation spends is said of the cells that a budget is made of
(`Built`). A refusal by a cell spends nothing. A refusal by process memory comes
after the cells were charged, and nobody gives the charge back
(`refused_memory_spends`); this is the only way a failure spends anything.
-/

namespace Sink.Budgets

open Function List

variable {budget : Budget} {ids : List Nat}

/-- A `ReadBudget`, with the cells and leases it refers to. -/
inductive Budget where
  /-- `NewReadBudget` and `NewTrackedReadBudget`. -/
  | plain (id : Nat)
  /-- `NewSharedReadBudget`. -/
  | shared (ids : List Nat)
  /-- `NewWorkingSetReadBudget`. -/
  | workingSet (caller : Budget) (working : Nat)
  /-- `WithMemoryBudget`. -/
  | memory (caller : Budget) (lease : Nat)
  /-- `NewResponseBudget` with a scope, whose output is a lease too. -/
  | response (caller : Budget) (output : Nat)
deriving Repr, DecidableEq

/-- The cells, what the pool answers to the next requests, and the bytes of the
leases. -/
structure BudgetState extends ReserveState where
  leases : Nat → Int

/-- `Lease.Grow`; a lease that the pool refuses to grow stays as it is. -/
def grow (st : BudgetState) (lease : Nat) (bytes : Int) : Option GoError × BudgetState :=
  match st.lease with
  | some err :: answers => (some err, { st with lease := answers })
  | none :: answers =>
    (none, { st with
      lease := answers
      leases := update st.leases lease (st.leases lease + bytes) })
  | [] => (none, { st with leases := update st.leases lease (st.leases lease + bytes) })

/-- `Reserve` of a budget that asks for memory after the caller's budget. -/
def reserveManaged (reserved : Option GoError × BudgetState) (lease : Nat) (bytes : Int) :
    Option GoError × BudgetState :=
  match reserved with
  | (some err, st) => (some err, st)
  | (none, st) =>
    match grow st lease bytes with
    | (some err, st) => (some (resourceExhaustedError err), st)
    | (none, st) => (none, st)

/-- `ReadBudget.Reserve`; `none` is success. -/
def Budget.reserve : Budget → Int → BudgetState → Option GoError × BudgetState
  | .plain id, size, st =>
    let (err, reserved) := st.reserveCell id size
    (err, { st with toReserveState := reserved })
  | .shared ids, size, st =>
    let (accepted, failure, reserved) := st.reserveShared size ids false none
    (if accepted then none else failure, { st with toReserveState := reserved })
  | .workingSet caller working, size, st =>
    match st.reserveCell working size with
    | (some err, reserved) =>
      let st := { st with toReserveState := reserved }
      if 0 ≤ size ∧ size ≤ (st.cells working).maximum - readOverhead then
        (some (.sentinel .readWorkingSetFull), st)
      else (some err, st)
    | (none, reserved) =>
      match caller.reserve size { st with toReserveState := reserved } with
      | (some err, st) =>
        let cell := st.cells working
        let cell := { cell with remaining := cell.remaining + (size + readOverhead) }
        (some err, { st with cells := update st.cells working cell })
      | (none, st) => (none, st)
  | .memory caller lease, size, st =>
    reserveManaged (caller.reserve size st) lease (size + readOverhead)
  | .response caller output, size, st =>
    reserveManaged (caller.reserve size st) output (2 * (size + readOverhead))

/-! ## The nestings of the service -/

inductive Callers : Budget → List Nat → Prop where
  | plain (id : Nat) : Callers (.plain id) [id]
  | shared {ids : List Nat} (distinct : ids.Nodup) (several : 2 ≤ ids.length) :
      Callers (.shared ids) ids

/-- The budget of a snapshot: the working set is no caller's cell. -/
inductive Snapshot : Budget → List Nat → Prop where
  | alone {budget : Budget} {ids : List Nat} (callers : Callers budget ids) : Snapshot budget ids
  | workingSet {budget : Budget} {ids : List Nat} {working : Nat} (callers : Callers budget ids)
      (apart : working ∉ ids) : Snapshot (.workingSet budget working) (working :: ids)

/-- The budgets that are handed to a store or charged for a response. -/
inductive Built : Budget → List Nat → Prop where
  | bare {budget : Budget} {ids : List Nat} (snapshot : Snapshot budget ids) : Built budget ids
  | memory {budget : Budget} {ids : List Nat} {lease : Nat} (snapshot : Snapshot budget ids) :
      Built (.memory budget lease) ids
  | response (id output : Nat) : Built (.response (.plain id) output) [id]

/-! ## The same budget without leases -/

/-- The budget as the model of a storage call sees it, which does not count the
bytes of leases. -/
def Budget.erase : Budget → ReadBudget
  | .plain id => .cell id
  | .shared ids => .shared ids
  | .workingSet caller working => .workingSet caller.erase working
  | .memory caller _ => .memory caller.erase
  | .response caller _ => .memory caller.erase

/-- The outcome as the storage model has it. -/
def withoutLeases (r : Option GoError × BudgetState) : Option GoError × ReserveState :=
  (r.1, r.2.toReserveState)

variable {size : Int} {st : BudgetState}

theorem reserveManaged_erase {caller : Budget} (lease : Nat) (bytes : Int)
    (h : withoutLeases (caller.reserve size st) = caller.erase.reserve size st.toReserveState) :
    withoutLeases (reserveManaged (caller.reserve size st) lease bytes) =
      (ReadBudget.memory caller.erase).reserve size st.toReserveState := by
  rw [ReadBudget.reserve, ← h]
  obtain ⟨err, st'⟩ := caller.reserve size st
  cases err with
  | some err => rfl
  | none =>
    obtain ⟨⟨cells, answers⟩, leases⟩ := st'
    cases answers with
    | nil => rfl
    | cons answer answers =>
      cases answer with
      | none => rfl
      | some err => rfl

theorem Callers.erase (callers : Callers budget ids) (size : Int) (st : BudgetState) :
    withoutLeases (budget.reserve size st) = budget.erase.reserve size st.toReserveState := by
  cases callers with
  | plain id => rfl
  | shared distinct several =>
    cases ids with
    | nil => exact absurd several (by decide)
    | cons id ids =>
      rw [Budget.reserve, Budget.erase, ReadBudget.reserve]
      dsimp only
      split <;> rfl

theorem Snapshot.erase (snapshot : Snapshot budget ids) (size : Int) (st : BudgetState) :
    withoutLeases (budget.reserve size st) = budget.erase.reserve size st.toReserveState := by
  cases snapshot with
  | alone callers => exact callers.erase size st
  | workingSet callers apart =>
    rename_i budget ids working
    rw [Budget.reserve, Budget.erase, ReadBudget.reserve]
    cases hcell : st.reserveCell working size with
    | mk err reserved =>
      cases err with
      | some err =>
        dsimp only
        split <;> rfl
      | none =>
        dsimp only
        rw [← callers.erase size { st with toReserveState := reserved }]
        cases hcaller : budget.reserve size { st with toReserveState := reserved } with
        | mk err st' =>
          cases err with
          | some err => rfl
          | none => rfl

/-- Leases apart, this is the reservation of the storage model. -/
theorem reserve_erase (built : Built budget ids) (size : Int) (st : BudgetState) :
    withoutLeases (budget.reserve size st) = budget.erase.reserve size st.toReserveState := by
  cases built with
  | bare snapshot => exact snapshot.erase size st
  | memory snapshot => exact reserveManaged_erase _ _ (snapshot.erase size st)
  | response id output => exact reserveManaged_erase _ _ ((Callers.plain id).erase size st)

/-! ## What a reservation spends -/

/-- The cells have room for a document of this size. -/
def Budget.Accepts (size : Int) (cells : Nat → BudgetCell) : Budget → Prop
  | .plain id => (cells id).Fits size
  | .shared ids => ∃ id ∈ ids, (cells id).Fits size
  | .workingSet caller working => (cells working).Fits size ∧ caller.Accepts size cells
  | .memory caller _ | .response caller _ => caller.Accepts size cells

/-- The budget asks for process memory. -/
def Budget.asksMemory : Budget → Bool
  | .memory .. | .response .. => true
  | _ => false

/-- Some of the cells were charged once each, and no other cell. -/
structure Spent (ids : List Nat) (size : Int) (before after : Nat → BudgetCell) : Prop where
  each : ∀ id ∈ ids, after id = before id ∨ after id = (before id).charge size
  charged : ∃ id ∈ ids, after id = (before id).charge size
  others : ∀ id, id ∉ ids → after id = before id

theorem reserveCell_cases (st : ReserveState) (id : Nat) (size : Int) :
    (¬ (st.cells id).Fits size ∧ ∃ err, st.reserveCell id size = (some err, st)) ∨
      (st.cells id).Fits size ∧ st.reserveCell id size =
        (none, { st with cells := update st.cells id ((st.cells id).charge size) }) := by
  rw [ReserveState.reserveCell]
  by_cases hfits : (st.cells id).Fits size
  · rw [hfits.reserve]
    exact .inr ⟨hfits, rfl⟩
  cases hcell : (st.cells id).reserve size with
  | error err => exact .inl ⟨hfits, err, rfl⟩
  | ok cell =>
    obtain ⟨haccept, -⟩ := BudgetCell.reserve_ok hcell
    refine absurd ?_ hfits
    simp only [BudgetCell.refuses, BudgetCell.Fits] at haccept ⊢
    omega

/-- Each shared cell is charged or refuses; one that has room is enough. -/
theorem reserveShared_cases (distinct : ids.Nodup) (size : Int) (st : ReserveState)
    (accepted : Bool) (failure : Option GoError) :
    (∀ id ∈ ids, (st.reserveShared size ids accepted failure).2.2.cells id = st.cells id ∨
      (st.reserveShared size ids accepted failure).2.2.cells id = (st.cells id).charge size) ∧
    ((st.reserveShared size ids accepted failure).1 = true → accepted = true ∨
      ∃ id ∈ ids, (st.cells id).Fits size ∧
        (st.reserveShared size ids accepted failure).2.2.cells id = (st.cells id).charge size) ∧
    ((st.reserveShared size ids accepted failure).1 = false →
      (¬ ∃ id ∈ ids, (st.cells id).Fits size) ∧
        (st.reserveShared size ids accepted failure).2.2 = st) := by
  induction ids generalizing st accepted failure with
  | nil =>
    exact ⟨fun _ h => absurd h not_mem_nil, fun h => .inl h, fun _ => ⟨by simp, rfl⟩⟩
  | cons id ids ih =>
    obtain ⟨hid, hids⟩ := nodup_cons.mp distinct
    rw [ReserveState.reserveShared]
    rcases reserveCell_cases st id size with ⟨hfull, err, hrefused⟩ | ⟨hfits, hcharged⟩
    · rw [hrefused]
      obtain ⟨heach, haccepted, hrefuse⟩ := ih hids st accepted (some err)
      refine ⟨?_, ?_, fun h => ⟨?_, (hrefuse h).2⟩⟩
      · exact forall_mem_cons.mpr ⟨.inl (st.reserveShared_other size hid accepted (some err)),
          heach⟩
      · intro h
        rcases haccepted h with h | ⟨other, hmem, hother⟩
        · exact .inl h
        · exact .inr ⟨other, mem_cons_of_mem _ hmem, hother⟩
      · rintro ⟨other, hmem, hother⟩
        rcases mem_cons.mp hmem with rfl | hmem
        · exact hfull hother
        · exact (hrefuse h).1 ⟨other, hmem, hother⟩
    · rw [hcharged]
      have hother : ∀ other ∈ ids,
          update st.cells id ((st.cells id).charge size) other = st.cells other := by
        intro other hmem
        refine update_of_ne ?_ _ _
        rintro rfl
        exact hid hmem
      obtain ⟨heach, _, hrefuse⟩ := ih hids
        { st with cells := update st.cells id ((st.cells id).charge size) } true failure
      have hfirst := ReserveState.reserveShared_other
        { st with cells := update st.cells id ((st.cells id).charge size) } size hid true
        failure
      dsimp only at hfirst
      rw [update_self] at hfirst
      refine ⟨?_, fun _ => .inr ⟨id, mem_cons_self, hfits, hfirst⟩, ?_⟩
      · intro other hmem
        rcases mem_cons.mp hmem with rfl | hmem
        · exact .inr hfirst
        have hcell := heach other hmem
        dsimp only at hcell
        rw [hother other hmem] at hcell
        exact hcell
      · intro h
        rw [ReserveState.reserveShared_accepted] at h
        cases h

theorem reserveShared_failure (size : Int) (st : ReserveState) (accepted : Bool)
    (failure : Option GoError) (asked : ids ≠ [] ∨ failure ≠ none)
    (h : (st.reserveShared size ids accepted failure).1 = false) :
    ∃ err, (st.reserveShared size ids accepted failure).2.1 = some err := by
  induction ids generalizing st accepted failure with
  | nil =>
    rcases asked with hids | hfailure
    · exact absurd rfl hids
    · exact Option.ne_none_iff_exists'.mp hfailure
  | cons id ids ih =>
    rw [ReserveState.reserveShared] at h ⊢
    rcases reserveCell_cases st id size with ⟨-, err, hrefused⟩ | ⟨-, hcharged⟩
    · rw [hrefused] at h ⊢
      exact ih st accepted (some err) (.inr (Option.some_ne_none err)) h
    rw [hcharged] at h
    rw [ReserveState.reserveShared_accepted] at h
    cases h

/-- A reservation fails and changes nothing or, if the cells have room, it
spends. -/
def Outcome (ids : List Nat) (size : Int) (st : BudgetState) (room : Prop)
    (reserved : Option GoError × BudgetState) : Prop :=
  (¬ room ∧ ∃ err, reserved = (some err, st)) ∨
    room ∧ ∃ cells, reserved = (none, { st with cells }) ∧ Spent ids size st.cells cells

theorem Callers.outcome (callers : Callers budget ids) (size : Int) (st : BudgetState) :
    Outcome ids size st (budget.Accepts size st.cells) (budget.reserve size st) := by
  cases callers with
  | plain id =>
    rw [Budget.reserve]
    rcases reserveCell_cases st.toReserveState id size with ⟨hfull, err, hrefused⟩ |
      ⟨hfits, hcharged⟩
    · rw [hrefused]
      exact .inl ⟨hfull, err, rfl⟩
    rw [hcharged]
    refine .inr ⟨hfits, _, rfl, ?_, ⟨id, mem_singleton.mpr rfl, update_self ..⟩, ?_⟩
    · intro other hmem
      rw [mem_singleton.mp hmem]
      exact .inr (update_self ..)
    · intro other hmem
      exact update_of_ne (fun h => hmem (mem_singleton.mpr h)) ..
  | shared distinct several =>
    have hne : ids ≠ [] := by
      rintro rfl
      exact absurd several (by decide)
    have hcases := reserveShared_cases distinct size st.toReserveState false none
    have hlease := st.toReserveState.reserveShared_lease size ids false none
    have hother := fun id (hid : id ∉ ids) =>
      st.toReserveState.reserveShared_other size hid false none
    have hfailure := reserveShared_failure size st.toReserveState false none (.inl hne)
    rw [Budget.reserve]
    obtain ⟨⟨accepted, failure, reserved⟩, hresult⟩ :
      ∃ r, st.toReserveState.reserveShared size ids false none = r := ⟨_, rfl⟩
    rw [hresult] at hcases hlease hfailure ⊢
    simp only [hresult] at hother
    dsimp only at hcases hlease hother hfailure ⊢
    obtain ⟨heach, haccepted, hrefused⟩ := hcases
    cases accepted with
    | true =>
      rcases haccepted rfl with h | ⟨id, hid, hfits, hcharged⟩
      · cases h
      · refine .inr ⟨⟨id, hid, hfits⟩, reserved.cells, ?_, heach, ⟨id, hid, hcharged⟩, hother⟩
        rw [if_pos rfl, ← hlease]
    | false =>
      obtain ⟨err, rfl⟩ := hfailure rfl
      rw [(hrefused rfl).2, if_neg Bool.false_ne_true]
      exact .inl ⟨(hrefused rfl).1, err, rfl⟩

theorem charge_refund (cell : BudgetCell) (size : Int) :
    { cell.charge size with
      remaining := (cell.charge size).remaining + (size + readOverhead) } = cell := by
  rw [BudgetCell.charge]
  rw [Int.sub_add_cancel]

/-- Whether a caller accepts depends on its own cells only. -/
theorem Callers.accepts_congr (callers : Callers budget ids) {cells cells' : Nat → BudgetCell}
    (h : ∀ id ∈ ids, cells id = cells' id) :
    budget.Accepts size cells ↔ budget.Accepts size cells' := by
  cases callers with
  | plain id => rw [Budget.Accepts, Budget.Accepts, h id (mem_singleton.mpr rfl)]
  | shared distinct several =>
    refine exists_congr fun id => and_congr_right fun hid => ?_
    rw [h id hid]

theorem Snapshot.outcome (snapshot : Snapshot budget ids) (size : Int) (st : BudgetState) :
    Outcome ids size st (budget.Accepts size st.cells) (budget.reserve size st) := by
  cases snapshot with
  | alone callers => exact callers.outcome size st
  | workingSet callers apart =>
    rename_i budget ids working
    rw [Budget.reserve]
    rcases reserveCell_cases st.toReserveState working size with ⟨hfull, err, hrefused⟩ |
      ⟨hfits, hcharged⟩
    · rw [hrefused]
      dsimp only
      split
      · exact .inl ⟨fun h => hfull h.1, _, rfl⟩
      · exact .inl ⟨fun h => hfull h.1, err, rfl⟩
    · rw [hcharged]
      dsimp only
      have hworking : ∀ id ∈ ids, update st.cells working
          ((st.cells working).charge size) id = st.cells id := by
        intro id hmem
        refine update_of_ne ?_ ..
        rintro rfl
        exact apart hmem
      have houtcome := callers.outcome size
        { st with cells := update st.cells working ((st.cells working).charge size) }
      rw [Outcome, callers.accepts_congr hworking] at houtcome
      rcases houtcome with ⟨hroom, err, hrefused⟩ | ⟨hroom, cells, haccepted, hspent⟩
      · -- the working set gets back what it was charged
        rw [hrefused]
        refine .inl ⟨fun h => hroom h.2, err, ?_⟩
        dsimp only
        rw [update_self, charge_refund, update_idem, update_eq_self]
      · rw [haccepted]
        refine .inr ⟨⟨hfits, hroom⟩, cells, rfl, ?_, ?_, ?_⟩
        · intro id hmem
          rcases mem_cons.mp hmem with rfl | hmem
          · rw [hspent.others id apart]
            exact .inr (update_self ..)
          have heach := hspent.each id hmem
          dsimp only at heach
          rwa [hworking id hmem] at heach
        · obtain ⟨id, hmem, hid⟩ := hspent.charged
          dsimp only at hid
          rw [hworking id hmem] at hid
          exact ⟨id, mem_cons_of_mem _ hmem, hid⟩
        · intro id hmem
          rw [mem_cons, not_or] at hmem
          rw [hspent.others id hmem.2]
          exact update_of_ne hmem.1 ..

/-- As `Outcome`, or process memory refuses after the cells were charged. -/
def ManagedOutcome (ids : List Nat) (size : Int) (st : BudgetState) (spends : Prop)
    (reserved : Option GoError × BudgetState) : Prop :=
  (¬ spends ∧ ∃ err, reserved = (some err, st)) ∨
  (spends ∧ ∃ cause answers cells, Spent ids size st.cells cells ∧
    reserved = (some (resourceExhaustedError cause), { st with cells, lease := answers })) ∨
  (¬ spends ∧ ∃ cells answers leases, Spent ids size st.cells cells ∧
    reserved = (none, { cells, lease := answers, leases }))

/-- A failure spends: the cells have room and process memory refuses. -/
def FailureSpends (budget : Budget) (size : Int) (st : BudgetState) : Prop :=
  budget.asksMemory = true ∧ budget.Accepts size st.cells ∧
    ∃ cause answers, st.lease = some cause :: answers

theorem Outcome.managed {room reserved}
    (h : Outcome ids size st room reserved) (lease : Nat) (bytes : Int) :
    ManagedOutcome ids size st (room ∧ ∃ cause answers, st.lease = some cause :: answers)
      (reserveManaged reserved lease bytes) := by
  rcases h with ⟨hroom, err, rfl⟩ | ⟨hroom, cells, rfl, hspent⟩
  · exact .inl ⟨fun h => hroom h.1, err, rfl⟩
  right
  obtain ⟨⟨before, answers⟩, leases⟩ := st
  cases answers with
  | nil => exact .inr ⟨by simp, _, _, _, hspent, rfl⟩
  | cons answer answers =>
    cases answer with
    | none => exact .inr ⟨by simp, _, _, _, hspent, rfl⟩
    | some cause => exact .inl ⟨⟨hroom, cause, answers, rfl⟩, cause, answers, cells, hspent, rfl⟩

theorem Snapshot.asksMemory (snapshot : Snapshot budget ids) : budget.asksMemory = false := by
  cases snapshot with
  | alone callers => cases callers <;> rfl
  | workingSet callers apart => rfl

theorem Built.outcome (built : Built budget ids) (size : Int) (st : BudgetState) :
    ManagedOutcome ids size st (FailureSpends budget size st) (budget.reserve size st) := by
  cases built with
  | bare snapshot =>
    have hbare : ¬ FailureSpends budget size st := by
      rintro ⟨hasks, -⟩
      rw [snapshot.asksMemory] at hasks
      cases hasks
    rcases snapshot.outcome size st with ⟨-, hrefused⟩ | ⟨-, cells, haccepted, hspent⟩
    · exact .inl ⟨hbare, hrefused⟩
    · exact .inr (.inr ⟨hbare, cells, _, _, hspent, haccepted⟩)
  | memory snapshot =>
    simp only [FailureSpends, Budget.asksMemory, true_and]
    exact (snapshot.outcome size st).managed _ _
  | response id output =>
    simp only [FailureSpends, Budget.asksMemory, true_and]
    exact ((Callers.plain id).outcome size st).managed _ _

variable {before after : Nat → BudgetCell}

theorem Spent.remaining (h : Spent ids size before after) :
    (∀ id ∈ ids, (after id).remaining = (before id).remaining ∨
      (after id).remaining = (before id).remaining - (size + 128)) ∧
    ∃ id ∈ ids, (after id).remaining = (before id).remaining - (size + 128) := by
  constructor
  · intro id hmem
    rcases h.each id hmem with hsame | hcharged
    · exact .inl (by rw [hsame])
    · exact .inr (by rw [hcharged]; rfl)
  · obtain ⟨id, hmem, hcharged⟩ := h.charged
    exact ⟨id, hmem, by rw [hcharged]; rfl⟩

/-- A charge takes something, as no document is smaller than its overhead. -/
theorem Spent.ne (h : Spent ids size before after) (hsize : 0 ≤ size) : after ≠ before := by
  rintro rfl
  obtain ⟨id, -, hcharged⟩ := h.remaining.2
  omega

theorem Budget.Accepts.nonneg {budget : Budget} {cells : Nat → BudgetCell}
    (h : budget.Accepts size cells) : 0 ≤ size := by
  induction budget with
  | plain id => exact h.1
  | shared ids =>
    obtain ⟨id, -, hfits⟩ := h
    exact hfits.1
  | workingSet caller working ih => exact h.1.1
  | memory caller lease ih => exact ih h
  | response caller output ih => exact ih h

/-- A reservation that fails spends nothing, except exactly when its cells have
room and it is process memory that refuses; no lease keeps bytes of a failed
reservation. One that succeeds charges some of the cells the size of the
document and its overhead, and no other. -/
theorem reservation_spends {budget : Budget} {ids : List Nat} (built : Built budget ids)
    (size : Int) (st : BudgetState) :
    let reserved := budget.reserve size st
    ((∀ err, reserved.1 = some err → reserved.2.cells = st.cells ∧ reserved.2.leases = st.leases) ↔
      ¬ (budget.asksMemory = true ∧ budget.Accepts size st.cells ∧
        ∃ cause answers, st.lease = some cause :: answers)) ∧
    (∀ err, reserved.1 = some err → reserved.2.leases = st.leases) ∧
    (reserved.1 = none →
      (∀ id ∈ ids, (reserved.2.cells id).remaining = (st.cells id).remaining ∨
        (reserved.2.cells id).remaining = (st.cells id).remaining - (size + 128)) ∧
      (∃ id ∈ ids, (reserved.2.cells id).remaining = (st.cells id).remaining - (size + 128)) ∧
      ∀ id, id ∉ ids → reserved.2.cells id = st.cells id) := by
  rcases built.outcome size st with ⟨hno, err, hrefused⟩ |
    ⟨hspends, cause, answers, cells, hspent, hrefused⟩ |
    ⟨hno, cells, answers, leases, hspent, haccepted⟩
  · rw [hrefused]
    exact ⟨iff_of_true (fun _ _ => ⟨rfl, rfl⟩) hno, fun _ _ => rfl, fun h => (nomatch h)⟩
  · rw [hrefused]
    refine ⟨iff_of_false (fun h => ?_) fun h => h hspends, fun _ _ => rfl, fun h => (nomatch h)⟩
    exact hspent.ne hspends.2.1.nonneg (h _ rfl).1
  · rw [haccepted]
    exact ⟨iff_of_true (fun _ h => (nomatch h)) hno, fun _ h => (nomatch h),
      fun _ => ⟨hspent.remaining.1, hspent.remaining.2, hspent.others⟩⟩

/-- Two callers and their working set, of which the first has little left. -/
def crowdedState : BudgetState where
  cells := fun id => if id = 0 then ⟨100, 1000⟩ else .new 1000
  lease := []
  leases := fun _ => 0

/-- A snapshot of 100 bytes is charged to the second caller and to the working set. -/
theorem reservation_spends_crowded :
    let reserved :=
      (Budget.memory (.workingSet (.shared [0, 1]) 2) 0).reserve 100 crowdedState
    reserved.1 = none ∧ (reserved.2.cells 0).remaining = 100 ∧
      (reserved.2.cells 1).remaining = 772 ∧ (reserved.2.cells 2).remaining = 772 ∧
      reserved.2.cells 3 = crowdedState.cells 3 := by
  have hbuilt : Built (.memory (.workingSet (.shared [0, 1]) 2) 0) [2, 0, 1] :=
    .memory (.workingSet (.shared (by decide) (by decide)) (by decide))
  have hall := reservation_spends hbuilt 100 crowdedState
  have hnone : ((Budget.memory (.workingSet (.shared [0, 1]) 2) 0).reserve 100 crowdedState).1 =
      none := by decide
  exact ⟨hnone, by decide, by decide, by decide, (hall.2.2 hnone).2.2 3 (by decide)⟩

/-- An RPC with 1000 bytes, and a process that has no memory left. -/
def exhaustedState : BudgetState where
  cells := fun _ => .new 1000
  lease := [some (.status .resourceExhausted (lit "allocation exceeds process memory capacity"))]
  leases := fun _ => 0

/-- A document that process memory refuses has spent its caller's budget, and a
sibling that had room before is refused. -/
theorem refused_memory_spends :
    Built (.memory (.plain 0) 0) [0] ∧
    let refused := (Budget.memory (.plain 0) 0).reserve 100 exhaustedState
    refused.1 ≠ none ∧ (exhaustedState.cells 0).remaining = 1000 ∧
      (refused.2.cells 0).remaining = 772 ∧
      ((Budget.memory (.plain 0) 0).reserve 800 { exhaustedState with lease := [] }).1 = none ∧
      ((Budget.memory (.plain 0) 0).reserve 800 refused.2).1 ≠ none := by
  refine ⟨.memory (.alone (.plain 0)), ?_⟩
  decide

end Sink.Budgets
