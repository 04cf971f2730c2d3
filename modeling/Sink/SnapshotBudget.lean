import Sink.WriteExec

/-!
# Snapshot budgets

The budget of a record's snapshot charges all callers that ask for the record,
once each. Beside other callers the snapshot also has to fit into a working set
that they share; if it does not, its callers wait. Here is what one charge
means for a caller that has room for it.
-/

namespace Sink

open List Function

/-! ## Cells -/

/-- The cell has room for a document. -/
def BudgetCell.Fits (cell : BudgetCell) (size : Int) : Prop :=
  0 ≤ size ∧ size + readOverhead ≤ cell.remaining

theorem BudgetCell.Fits.reserve {cell : BudgetCell} {size : Int} (h : cell.Fits size) :
    cell.reserve size = .ok (cell.charge size) := by
  obtain ⟨hsize, hroom⟩ := h
  have haccept : ¬cell.refuses size := by
    simp only [BudgetCell.refuses, readOverhead] at hroom ⊢
    omega
  rw [BudgetCell.reserve, if_neg haccept]

/-- The error, if any, does not ask for a later chunk. -/
def Conclusive (err : Option GoError) : Prop :=
  ∀ e, err = some e → e.isSentinel .readWorkingSetFull = false

theorem conclusive_none : Conclusive none := nofun

theorem conclusive_refusal (cell : BudgetCell) (size : Int) :
    Conclusive (some (cell.refusal size)) := by
  rintro _ ⟨⟩
  rfl

namespace ReserveState

variable (st : ReserveState) (size : Int)

theorem reserveCell_lease (id : Nat) : (st.reserveCell id size).2.lease = st.lease := by
  unfold reserveCell
  split <;> rfl

theorem reserveCell_other {id a : Nat} (h : a ≠ id) :
    (st.reserveCell id size).2.cells a = st.cells a := by
  unfold reserveCell
  split
  · rfl
  · exact update_of_ne h ..

variable {a : Nat}

theorem reserveCell_own (h : (st.cells a).Fits size) :
    (st.reserveCell a size).1 = none ∧
      (st.reserveCell a size).2.cells a = (st.cells a).charge size := by
  simp [reserveCell, h.reserve]

theorem reserveCell_maximum (id a : Nat) :
    ((st.reserveCell id size).2.cells a).maximum = (st.cells a).maximum := by
  by_cases h : a = id
  · subst h
    unfold reserveCell
    split
    · rfl
    rename_i cell hcell
    obtain ⟨-, rfl⟩ := BudgetCell.reserve_ok hcell
    simp [BudgetCell.charge]
  · rw [reserveCell_other _ _ h]

theorem reserveCell_conclusive (id : Nat) : Conclusive (st.reserveCell id size).1 := by
  unfold reserveCell
  split
  · rename_i e herr
    rw [(BudgetCell.reserve_error herr).2]
    exact conclusive_refusal _ _
  · exact conclusive_none

theorem reserveShared_cons (id : Nat) (ids : List Nat) (accepted : Bool)
    (failure : Option GoError) :
    let r := st.reserveCell id size
    reserveShared size (id :: ids) st accepted failure =
      reserveShared size ids r.2 (accepted || r.1.isNone) (r.1.or failure) := by
  rcases hcell : st.reserveCell id size with ⟨_ | e, st'⟩ <;> simp [reserveShared, hcell]

theorem reserveShared_other {ids : List Nat} (h : a ∉ ids) (accepted : Bool)
    (failure : Option GoError) :
    (reserveShared size ids st accepted failure).2.2.cells a = st.cells a := by
  induction ids generalizing st accepted failure with
  | nil => rfl
  | cons id ids ih =>
    rw [mem_cons, not_or] at h
    rw [reserveShared_cons, ih _ h.2, reserveCell_other _ _ h.1]

theorem reserveShared_lease (ids : List Nat) (accepted : Bool) (failure : Option GoError) :
    (reserveShared size ids st accepted failure).2.2.lease = st.lease := by
  induction ids generalizing st accepted failure with
  | nil => rfl
  | cons id ids ih => rw [reserveShared_cons, ih, reserveCell_lease]

theorem reserveShared_accepted (ids : List Nat) (failure : Option GoError) :
    (reserveShared size ids st true failure).1 = true := by
  induction ids generalizing st failure with
  | nil => rfl
  | cons id ids ih => rw [reserveShared_cons, Bool.true_or, ih]

/-- A caller with room is charged once, and the snapshot is accepted. -/
theorem reserveShared_own {ids : List Nat} (hids : ids.Nodup) (ha : a ∈ ids)
    (h : (st.cells a).Fits size) (accepted : Bool) (failure : Option GoError) :
    (reserveShared size ids st accepted failure).1 = true ∧
      (reserveShared size ids st accepted failure).2.2.cells a = (st.cells a).charge size := by
  induction ids generalizing st accepted failure with
  | nil => cases ha
  | cons id ids ih =>
    obtain ⟨hid, hids⟩ := nodup_cons.mp hids
    rw [reserveShared_cons]
    rcases mem_cons.mp ha with rfl | ha
    · obtain ⟨hnone, hcharged⟩ := st.reserveCell_own size h
      rw [reserveShared_other _ size hid, hnone, Option.isNone_none, Bool.or_true]
      exact ⟨reserveShared_accepted _ size ids _, hcharged⟩
    · have hne : a ≠ id := fun heq => hid (heq ▸ ha)
      have hcell := st.reserveCell_other size hne
      rw [← hcell] at h ⊢
      exact ih _ hids ha h _ _

theorem reserveShared_conclusive (ids : List Nat) (accepted : Bool) {failure : Option GoError}
    (hfailure : Conclusive failure) :
    Conclusive (st.reserveShared size ids accepted failure).2.1 := by
  induction ids generalizing st accepted failure with
  | nil => exact hfailure
  | cons id ids ih =>
    have hcell := st.reserveCell_conclusive size id
    rw [reserveShared_cons]
    refine ih _ _ ?_
    cases hone : (st.reserveCell id size).1 with
    | none => exact hfailure
    | some e =>
      rw [hone] at hcell
      exact hcell

end ReserveState

/-! ## Waiting -/

def ReadBudget.waits : ReadBudget → Bool
  | .cell _ => false
  | .shared _ => false
  | .workingSet _ _ => true
  | .memory caller => caller.waits

/-- While memory is granted, only a full working set makes a caller wait. -/
theorem ReadBudget.reserve_granted (budget : ReadBudget) (size : Int) {st : ReserveState}
    (hlease : ∀ answer ∈ st.lease, answer = none) :
    (∀ answer ∈ (budget.reserve size st).2.lease, answer = none) ∧
      (budget.waits = false → Conclusive (budget.reserve size st).1) := by
  induction budget generalizing st with
  | cell id =>
    have hsame := st.reserveCell_lease size id
    exact ⟨fun x hx => hlease x (hsame ▸ hx), fun _ => st.reserveCell_conclusive size id⟩
  | shared ids =>
    cases ids with
    | nil => exact ⟨hlease, fun _ => conclusive_refusal _ _⟩
    | cons id ids =>
      have hsame := st.reserveShared_lease size (id :: ids) false none
      have herror := st.reserveShared_conclusive size (id :: ids) false conclusive_none
      simp only [ReadBudget.reserve]
      split
      · exact ⟨fun x hx => hlease x (hsame ▸ hx), fun _ => conclusive_none⟩
      · exact ⟨fun x hx => hlease x (hsame ▸ hx), fun _ => herror⟩
  | workingSet caller working ih =>
    refine ⟨?_, nofun⟩
    have hsame := st.reserveCell_lease size working
    simp only [ReadBudget.reserve]
    cases hworking : st.reserveCell working size with
    | mk err st' =>
      rw [hworking] at hsame
      have hlease' : ∀ answer ∈ st'.lease, answer = none := fun x hx => hlease x (hsame ▸ hx)
      have hcaller := (ih hlease').1
      cases err with
      | some e =>
        dsimp only
        split <;> exact hlease'
      | none =>
        dsimp only
        split
        all_goals
          rename_i hreserve
          rw [hreserve] at hcaller
          exact hcaller
  | memory caller ih =>
    obtain ⟨hgranted, hsteady⟩ := ih hlease
    simp only [ReadBudget.reserve, ReadBudget.waits]
    cases hcaller : caller.reserve size st with
    | mk err st' =>
      rw [hcaller] at hgranted hsteady
      cases err with
      | some e => exact ⟨hgranted, hsteady⟩
      | none =>
        dsimp only at hgranted ⊢
        cases hanswers : st'.lease with
        | nil => simp [hanswers, conclusive_none]
        | cons answer lease =>
          rw [hanswers] at hgranted
          obtain rfl := hgranted answer mem_cons_self
          exact ⟨(forall_mem_cons.mp hgranted).2, fun _ _ => nofun⟩

/-! ## The budget of one record -/

theorem nodup_eraseDups {α : Type} [DecidableEq α] (l : List α) : l.eraseDups.Nodup := by
  generalize hn : l.length = n
  induction n using Nat.strongRecOn generalizing l with
  | ind n ih =>
    cases l with
    | nil => simp
    | cons a l =>
      have hlen := length_filter_le (fun b => !b == a) l
      rw [length_cons] at hn
      rw [eraseDups_cons]
      refine nodup_cons.mpr ⟨fun hmem => ?_, ih _ (by omega) _ rfl⟩
      simpa using (mem_filter.mp (mem_eraseDups.mp hmem)).2

inductive ChargesTo : ReadBudget → List Nat → Prop where
  | cell (id : Nat) : ChargesTo (.cell id) [id]
  | shared {ids : List Nat} (hne : ids ≠ []) (hids : ids.Nodup) : ChargesTo (.shared ids) ids

theorem sharedSnapshotBudget_charges {owners : List Nat} {count : Nat} (hne : owners ≠ [])
    (hlt : ∀ o ∈ owners, o < count) :
    ∃ ids, ChargesTo (sharedSnapshotBudget owners count) ids ∧ ∀ o, o ∈ ids ↔ o ∈ owners := by
  unfold sharedSnapshotBudget
  split
  · exact ⟨_, .cell _, fun o => Iff.rfl⟩
  split
  · refine ⟨[0], .cell 0, fun o => ?_⟩
    have hzero : ∀ o ∈ owners, o = 0 := fun o ho => by
      have := hlt o ho
      omega
    obtain ⟨o', ho'⟩ := exists_mem_of_ne_nil owners hne
    constructor
    · intro ho
      rw [mem_singleton.mp ho, ← hzero o' ho']
      exact ho'
    · intro ho
      exact mem_singleton.mpr (hzero o ho)
  · split
    · rename_i owner hdups
      refine ⟨[owner], .cell owner, fun o => ?_⟩
      rw [← hdups, mem_eraseDups]
    · refine ⟨_, .shared (fun hnil => ?_) (nodup_eraseDups owners), fun o => mem_eraseDups⟩
      obtain ⟨o', ho'⟩ := exists_mem_of_ne_nil owners hne
      rw [← mem_eraseDups, hnil] at ho'
      cases ho'

namespace ChargesTo

variable {budget : ReadBudget} {ids : List Nat} (size : Int) (st : ReserveState)

theorem reserve_lease (h : ChargesTo budget ids) : (budget.reserve size st).2.lease = st.lease := by
  cases h with
  | cell id => exact st.reserveCell_lease size id
  | shared hne hids =>
    cases ids with
    | nil => exact absurd rfl hne
    | cons id ids =>
      have hlease := st.reserveShared_lease size (id :: ids) false none
      simp only [ReadBudget.reserve]
      split <;> exact hlease

theorem reserve_other (h : ChargesTo budget ids) {a : Nat} (ha : a ∉ ids) :
    (budget.reserve size st).2.cells a = st.cells a := by
  cases h with
  | cell id => exact st.reserveCell_other size fun heq => ha (mem_singleton.mpr heq)
  | shared hne hids =>
    cases ids with
    | nil => exact absurd rfl hne
    | cons id ids =>
      have hcell := st.reserveShared_other size ha false none
      simp only [ReadBudget.reserve]
      split <;> exact hcell

theorem reserve_own (h : ChargesTo budget ids) {a : Nat} (ha : a ∈ ids)
    (hfits : (st.cells a).Fits size) : (budget.reserve size st).1 = none ∧
      (budget.reserve size st).2.cells a = (st.cells a).charge size := by
  cases h with
  | cell id =>
    obtain rfl := mem_singleton.mp ha
    exact st.reserveCell_own size hfits
  | shared hne hids =>
    cases ids with
    | nil => exact absurd rfl hne
    | cons id ids =>
      obtain ⟨haccepted, hcell⟩ := st.reserveShared_own size hids ha hfits false none
      simp only [ReadBudget.reserve]
      split
      · exact ⟨rfl, hcell⟩
      · rename_i hnot
        exact absurd haccepted hnot

end ChargesTo

/-- The working set is the cell `count`, of a fixed size, and memory is granted. -/
structure Calm (count : Nat) (maximum : Int) (st : ReserveState) : Prop where
  working : (st.cells count).maximum = maximum
  lease : ∀ answer ∈ st.lease, answer = none

/-- What reading one record does for caller `a` with a budget `before`. -/
inductive Charged (asks : Prop) (cost : Int) (before : Int) : Option GoError → Int → Prop where
  /-- The record is not the caller's. -/
  | other (err : Option GoError) (h : ¬asks) : Charged asks cost before err before
  | own (h : asks) : Charged asks cost before none (before - cost)
  /-- The caller has to wait. -/
  | full : Charged asks cost before (some (.sentinel .readWorkingSetFull)) before

section

variable {inner : ReadBudget} {ids : List Nat} {count a : Nat} {maximum size : Int}
  {st : ReserveState}

theorem plain_reserve (h : ChargesTo inner ids) (hcount : count ∉ ids)
    (hcalm : Calm count maximum st) (hfits : a ∈ ids → (st.cells a).Fits size) :
    let r := inner.reserve size st
    Charged (a ∈ ids) (size + readOverhead) (st.cells a).remaining r.1 (r.2.cells a).remaining ∧
      Calm count maximum r.2 := by
  intro r
  have hinner := h.reserve_lease size st
  have hkept := h.reserve_other size st hcount
  refine ⟨?_, (congrArg BudgetCell.maximum hkept).trans hcalm.working,
    fun x hx => hcalm.lease x (hinner ▸ hx)⟩
  by_cases hmem : a ∈ ids
  · obtain ⟨hnone, hcell⟩ := h.reserve_own size st hmem (hfits hmem)
    rw [hnone, hcell]
    exact .own hmem
  · rw [h.reserve_other size st hmem]
    exact .other _ hmem

theorem workingSet_reserve (h : ChargesTo inner ids) (hcount : count ∉ ids)
    (ha : a ≠ count) (hcalm : Calm count maximum st)
    (hfits : a ∈ ids → (st.cells a).Fits size ∧ size + readOverhead ≤ maximum) :
    let r := (ReadBudget.workingSet inner count).reserve size st
    Charged (a ∈ ids) (size + readOverhead) (st.cells a).remaining r.1 (r.2.cells a).remaining ∧
      Calm count maximum r.2 := by
  intro r
  have hr : r = (ReadBudget.workingSet inner count).reserve size st := rfl
  simp only [ReadBudget.reserve] at hr
  cases hworking : st.reserveCell count size with
  | mk err st' =>
    have hlease : st'.lease = st.lease := by
      simpa [hworking] using st.reserveCell_lease size count
    have hcell : st'.cells a = st.cells a := by
      simpa [hworking] using st.reserveCell_other size ha
    have hmax : (st'.cells count).maximum = maximum := by
      simpa [hworking, hcalm.working] using st.reserveCell_maximum size count count
    have hcalm' : Calm count maximum st' := ⟨hmax, fun x hx => hcalm.lease x (hlease ▸ hx)⟩
    rw [hworking] at hr
    cases err with
    | some e =>
      -- the working set refuses
      have hsame : r.2 = st' := by
        rw [hr]
        dsimp only
        split <;> rfl
      refine ⟨?_, hsame ▸ hcalm'⟩
      rw [hsame, hcell]
      by_cases hlarge : 0 ≤ size ∧ size ≤ (st'.cells count).maximum - readOverhead
      · simp only [hr, if_pos hlarge]
        exact .full
      refine .other _ fun hmem => hlarge ?_
      obtain ⟨⟨hsize, _⟩, hle⟩ := hfits hmem
      omega
    | none =>
      have hown := fun hmem => h.reserve_own size st' hmem (hcell ▸ (hfits hmem).1)
      have hother := fun hmem : a ∉ ids => h.reserve_other size st' hmem
      have hinner := plain_reserve (a := a) h hcount hcalm' fun hmem => hcell ▸ (hfits hmem).1
      cases hcaller : inner.reserve size st' with
      | mk err st'' =>
        simp only [hcaller, hcell] at hown hother hinner hr
        cases err with
        | some e =>
          -- the callers refuse, and the working set takes its bytes back
          have hmem : a ∉ ids := fun hmem => by cases (hown hmem).1
          simp only [hr, update_of_ne ha, hother hmem]
          refine ⟨.other _ hmem, ?_, hinner.2.lease⟩
          simp only [update_self, hinner.2.working]
        | none =>
          simp only [hr]
          exact hinner

theorem memory_reserve {budget : ReadBudget}
    (hcalm : Calm count maximum (budget.reserve size st).2) :
    let r := (ReadBudget.memory budget).reserve size st
    r.1 = (budget.reserve size st).1 ∧ r.2.cells = (budget.reserve size st).2.cells ∧
      Calm count maximum r.2 := by
  intro r
  have hr : r = (ReadBudget.memory budget).reserve size st := rfl
  simp only [ReadBudget.reserve] at hr
  cases hinner : budget.reserve size st with
  | mk err st' =>
    rw [hinner] at hcalm hr
    cases err with
    | some e =>
      rw [hr]
      exact ⟨rfl, rfl, hcalm⟩
    | none =>
      cases hlease : st'.lease with
      | nil =>
        simp only [hlease] at hr
        rw [hr]
        exact ⟨rfl, rfl, hcalm⟩
      | cons answer lease =>
        have hanswer : answer = none :=
          hcalm.lease answer (by rw [hlease]; exact mem_cons_self)
        simp only [hlease, hanswer] at hr
        rw [hr]
        refine ⟨rfl, rfl, hcalm.working, fun x hx => ?_⟩
        exact hcalm.lease x (by rw [hlease]; exact mem_cons_of_mem _ hx)

end

/-! ## The budget of a record's readers -/

def snapshotBudget (owners : List Nat) (count : Nat) (managed : Bool) : ReadBudget :=
  let budget := sharedSnapshotBudget owners count
  let budget := if count > 1 then .workingSet budget count else budget
  if managed then .memory budget else budget

section

variable {owners : List Nat} {count a : Nat} {managed : Bool} {maximum size : Int}
  {st : ReserveState}

theorem snapshotBudget_reserve (hne : owners ≠ []) (hlt : ∀ o ∈ owners, o < count)
    (ha : a < count) (hcalm : Calm count maximum st)
    (hfits : a ∈ owners → (st.cells a).Fits size ∧ size + readOverhead ≤ maximum) :
    let r := (snapshotBudget owners count managed).reserve size st
    Charged (a ∈ owners) (size + readOverhead) (st.cells a).remaining r.1
      (r.2.cells a).remaining ∧ Calm count maximum r.2 := by
  obtain ⟨ids, hids, hmem⟩ := sharedSnapshotBudget_charges hne hlt
  have hcount : count ∉ ids := fun h => Nat.lt_irrefl _ (hlt _ ((hmem _).mp h))
  rw [← hmem] at hfits ⊢
  -- with and without the working set
  obtain ⟨hcharged, hcalm'⟩ : let r := (if count > 1 then
      ReadBudget.workingSet (sharedSnapshotBudget owners count) count
      else sharedSnapshotBudget owners count).reserve size st
      Charged (a ∈ ids) (size + readOverhead) (st.cells a).remaining r.1 (r.2.cells a).remaining ∧
        Calm count maximum r.2 := by
    split
    · exact workingSet_reserve hids hcount (Nat.ne_of_lt ha) hcalm hfits
    · exact plain_reserve hids hcount hcalm fun h => (hfits h).1
  simp only [snapshotBudget]
  split
  · obtain ⟨herr, hcells, hmemory⟩ := memory_reserve hcalm'
    rw [herr, hcells]
    exact ⟨hcharged, hmemory⟩
  · exact ⟨hcharged, hcalm'⟩

end

/-! ## The first snapshot of a chunk -/

section

variable {size : Int} {st : ReserveState}

theorem sharedSnapshotBudget_cases (owners : List Nat) (count : Nat) :
    (∃ id, sharedSnapshotBudget owners count = .cell id) ∨
      ∃ ids, sharedSnapshotBudget owners count = .shared ids := by
  unfold sharedSnapshotBudget
  split
  · exact .inl ⟨_, rfl⟩
  split
  · exact .inl ⟨_, rfl⟩
  split
  · exact .inl ⟨_, rfl⟩
  · exact .inr ⟨_, rfl⟩

/-- The callers' own budgets never ask for a later chunk, and take no memory. -/
theorem sharedSnapshotBudget_conclusive (owners : List Nat) (count : Nat) :
    Conclusive ((sharedSnapshotBudget owners count).reserve size st).1 ∧
      ((sharedSnapshotBudget owners count).reserve size st).2.lease = st.lease := by
  rcases sharedSnapshotBudget_cases owners count with ⟨id, heq⟩ | ⟨ids, heq⟩
  · rw [heq]
    exact ⟨st.reserveCell_conclusive size id, st.reserveCell_lease size id⟩
  rw [heq]
  cases ids with
  | nil => exact ⟨conclusive_refusal _ _, rfl⟩
  | cons id ids =>
    have hall := st.reserveShared_conclusive size (id :: ids) false conclusive_none
    have hlease := st.reserveShared_lease size (id :: ids) false none
    simp only [ReadBudget.reserve]
    split
    · exact ⟨conclusive_none, hlease⟩
    · exact ⟨hall, hlease⟩

/-- An unused working set defers nothing: what does not fit into it never will. -/
theorem workingSet_conclusive {inner : ReadBudget} {count : Nat}
    (hfresh : (st.cells count).remaining = (st.cells count).maximum)
    (hinner : ∀ st' : ReserveState, Conclusive (inner.reserve size st').1 ∧
      (inner.reserve size st').2.lease = st'.lease) :
    Conclusive ((ReadBudget.workingSet inner count).reserve size st).1 ∧
      ((ReadBudget.workingSet inner count).reserve size st).2.lease = st.lease := by
  have hcell := st.reserveCell_conclusive size count
  have hlease := st.reserveCell_lease size count
  simp only [ReadBudget.reserve]
  cases hworking : st.reserveCell count size with
  | mk err st' =>
    rw [hworking] at hcell hlease
    cases err with
    | none =>
      obtain ⟨hcaller, hkept⟩ := hinner st'
      dsimp only
      cases hreserve : inner.reserve size st' with
      | mk err st'' =>
        rw [hreserve] at hcaller hkept
        cases err with
        | none => exact ⟨conclusive_none, hkept.trans hlease⟩
        | some e => exact ⟨hcaller, hkept.trans hlease⟩
    | some e =>
      -- a refusal leaves the cell alone, so its maximum is what was free
      unfold ReserveState.reserveCell at hworking
      split at hworking
      · rename_i e' herr
        obtain ⟨-, rfl⟩ := Prod.mk.inj hworking
        have hrefuses := (BudgetCell.reserve_error herr).1
        have hlarge : ¬ (0 ≤ size ∧ size ≤ (st.cells count).maximum - readOverhead) := by
          simp only [BudgetCell.refuses, hfresh, readOverhead] at hrefuses ⊢
          omega
        dsimp only
        rw [if_neg hlarge]
        exact ⟨hcell, rfl⟩
      · cases hworking

/-- Refused memory does not ask for a later chunk either. -/
theorem memory_conclusive {budget : ReadBudget} (hbudget : Conclusive (budget.reserve size st).1)
    (hlease : ∀ answer ∈ (budget.reserve size st).2.lease, Conclusive answer) :
    Conclusive ((ReadBudget.memory budget).reserve size st).1 := by
  simp only [ReadBudget.reserve]
  cases hreserve : budget.reserve size st with
  | mk err st' =>
    rw [hreserve] at hbudget hlease
    cases err with
    | some e => exact hbudget
    | none =>
      dsimp only
      cases hnext : st'.lease with
      | nil => exact conclusive_none
      | cons answer lease =>
        have hanswer := hlease answer (by simp only [hnext]; exact mem_cons_self)
        intro e he
        obtain ⟨cause, rfl, rfl⟩ := Option.map_eq_some_iff.mp he
        exact hanswer cause rfl

/-- The first document charged to a working set is not deferred. -/
theorem snapshotBudget_conclusive (owners : List Nat) {count : Nat} (managed : Bool)
    (hfresh : (st.cells count).remaining = (st.cells count).maximum)
    (hlease : ∀ answer ∈ st.lease, Conclusive answer) :
    Conclusive ((snapshotBudget owners count managed).reserve size st).1 := by
  have hbudget : ∀ budget, budget = (if count > 1 then
      ReadBudget.workingSet (sharedSnapshotBudget owners count) count
      else sharedSnapshotBudget owners count) →
      Conclusive (budget.reserve size st).1 ∧ (budget.reserve size st).2.lease = st.lease := by
    intro budget hbudget
    split at hbudget
    · rw [hbudget]
      exact workingSet_conclusive hfresh fun _ => sharedSnapshotBudget_conclusive owners count
    · rw [hbudget]
      exact sharedSnapshotBudget_conclusive owners count
  obtain ⟨hconclusive, hkept⟩ := hbudget _ rfl
  simp only [snapshotBudget]
  split
  · exact memory_conclusive hconclusive fun answer h => hlease answer (hkept ▸ h)
  · exact hconclusive

end

end Sink
