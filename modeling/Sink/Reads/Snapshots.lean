import Sink.Reads.Read
import Sink.SnapshotBudget

/-!
# Snapshots of one caller

What the storage read of a combined request means for one caller `a`. Its
budget is charged for the records it asks for, once each, and for nothing
else. As long as it has room for them, a record it asks for is answered as the
Store has it, or the working set is full and the caller is deferred.
-/

namespace Sink

open Grouping List Memory

/-! ## The storage read -/

namespace Memory.Store

variable (store : Store)

/-- The answer for a record as the Store has it. -/
def answer (address : Address) : Storage.ReadResult :=
  match store.records address with
  | none => ⟨.notFound, .empty, [], none⟩
  | some stored => ⟨.found, stored.document, stored.revision, none⟩

/-- What a record counts in a budget: nothing, if it is missing. -/
def bytes (address : Address) : Int :=
  match store.records address with
  | none => 0
  | some stored => stored.document.size + readOverhead

theorem bytes_nonneg (address : Address) : 0 ≤ store.bytes address := by
  unfold bytes
  split
  · exact Int.le_refl 0
  rename_i stored _
  have hsize := stored.document.size_nonneg
  simp only [readOverhead]
  omega

end Memory.Store

namespace Server

variable (srv : Server) {budgets : Option RequestBudgets} {a : Nat}
variable {g : Group Address Nat} {st : ReserveState} {groups : List (Group Address Nat)}

theorem readOperation_reserve (hne : g.members ≠ [])
    (hlt : ∀ i ∈ g.members, ownerOf budgets i < callerCount budgets)
    (ha : a < callerCount budgets) {size : Int}
    (hcalm : Calm (callerCount budgets) srv.maxReadBytes st)
    (hfits : a ∈ g.members.map (ownerOf budgets) →
      (st.cells a).Fits size ∧ size + readOverhead ≤ srv.maxReadBytes) :
    let r := (srv.readOperation budgets g).budget.reserve size st
    Charged (a ∈ g.members.map (ownerOf budgets)) (size + readOverhead) (st.cells a).remaining
      r.1 (r.2.cells a).remaining ∧ Calm (callerCount budgets) srv.maxReadBytes r.2 := by
  have howners : ∀ o ∈ g.members.map (ownerOf budgets), o < callerCount budgets := by
    intro o ho
    obtain ⟨i, hi, rfl⟩ := mem_map.mp ho
    exact hlt i hi
  exact snapshotBudget_reserve (by simpa using hne) howners ha hcalm hfits

/-- The records of the groups that caller `a` asks for. -/
def asked (budgets : Option RequestBudgets) (a : Nat) (groups : List (Group Address Nat)) :
    List Address :=
  (groups.filter fun g => decide (a ∈ g.members.map (ownerOf budgets))).map Group.key

theorem asked_cons_of_mem (groups : List (Group Address Nat))
    (h : a ∈ g.members.map (ownerOf budgets)) :
    asked budgets a (g :: groups) = g.key :: asked budgets a groups := by
  rw [asked, filter_cons, if_pos (decide_eq_true h)]
  rfl

theorem asked_cons_of_not_mem (groups : List (Group Address Nat))
    (h : a ∉ g.members.map (ownerOf budgets)) :
    asked budgets a (g :: groups) = asked budgets a groups := by
  rw [asked, filter_cons, if_neg (by simpa using h)]
  rfl

section

variable (store : Store)

include store

/-- One record, for a caller with room for all it asks for. -/
theorem readOne_own (hne : g.members ≠ [])
    (hlt : ∀ i ∈ g.members, ownerOf budgets i < callerCount budgets)
    (ha : a < callerCount budgets) (hcalm : Calm (callerCount budgets) srv.maxReadBytes st)
    (hmax : (st.cells a).remaining ≤ srv.maxReadBytes)
    (hroom : ((asked budgets a (g :: groups)).map store.bytes).sum ≤ (st.cells a).remaining)
    (hrest : 0 ≤ ((asked budgets a groups).map store.bytes).sum) :
    let r := store.readOne (srv.readOperation budgets g) st
    (a ∈ g.members.map (ownerOf budgets) →
      r.1 = store.answer g.key ∨ WriteExecution.isDeferred r.1 = true) ∧
    Calm (callerCount budgets) srv.maxReadBytes r.2 ∧
    (r.2.cells a).remaining ≤ srv.maxReadBytes ∧
    ((asked budgets a groups).map store.bytes).sum ≤ (r.2.cells a).remaining := by
  intro r
  have hr : r = store.readOne (srv.readOperation budgets g) st := rfl
  have hbytes := store.bytes_nonneg g.key
  have hasked : a ∈ g.members.map (ownerOf budgets) →
      ((asked budgets a (g :: groups)).map store.bytes).sum =
        store.bytes g.key + ((asked budgets a groups).map store.bytes).sum := by
    intro hmem
    rw [asked_cons_of_mem groups hmem, map_cons, sum_cons]
  have hless : ((asked budgets a groups).map store.bytes).sum ≤ (st.cells a).remaining := by
    by_cases hmem : a ∈ g.members.map (ownerOf budgets)
    · have := hasked hmem
      omega
    · rwa [asked_cons_of_not_mem groups hmem] at hroom
  unfold Store.readOne at hr
  have haddress : (srv.readOperation budgets g).address = g.key := rfl
  rw [haddress] at hr
  cases hrecord : store.records g.key with
  | none =>
    simp only [hrecord] at hr
    rw [hr]
    refine ⟨fun _ => .inl ?_, hcalm, hmax, hless⟩
    simp [Store.answer, hrecord]
  | some stored =>
    simp only [hrecord] at hr
    have hcost : store.bytes g.key = stored.document.size + readOverhead := by
      simp [Store.bytes, hrecord]
    have hfits : a ∈ g.members.map (ownerOf budgets) →
        (st.cells a).Fits stored.document.size ∧
          stored.document.size + readOverhead ≤ srv.maxReadBytes := by
      intro hmem
      have := hasked hmem
      exact ⟨⟨stored.document.size_nonneg, by omega⟩, by omega⟩
    obtain ⟨hcharged, hcalm'⟩ := srv.readOperation_reserve hne hlt ha hcalm hfits
    cases hreserve : (srv.readOperation budgets g).budget.reserve stored.document.size st with
    | mk err st' =>
      rw [hreserve] at hcharged hcalm' hr
      have hstate : r.2 = st' := by
        rw [hr]
        cases err <;> rfl
      rw [hstate]
      generalize hafter : (st'.cells a).remaining = after at hcharged ⊢
      cases hcharged with
      | other err hother =>
        refine ⟨fun hmem => absurd hmem hother, hcalm', ?_, ?_⟩ <;> omega
      | own hown =>
        have := hasked hown
        refine ⟨fun _ => .inl ?_, hcalm', by omega, by omega⟩
        rw [hr]
        simp [Store.answer, hrecord]
      | full =>
        refine ⟨fun _ => .inr ?_, hcalm', by omega, by omega⟩
        rw [hr]
        rfl

theorem sum_bytes_nonneg (addresses : List Address) : 0 ≤ (addresses.map store.bytes).sum := by
  induction addresses with
  | nil => exact Int.le_refl 0
  | cons address rest ih =>
    have hbytes := store.bytes_nonneg address
    rw [map_cons, sum_cons]
    omega

/-- All records, for a caller with room for those it asks for. -/
theorem read_own (groups : List (Group Address Nat)) (hne : ∀ g ∈ groups, g.members ≠ [])
    (hlt : ∀ g ∈ groups, ∀ i ∈ g.members, ownerOf budgets i < callerCount budgets)
    (ha : a < callerCount budgets) (hcalm : Calm (callerCount budgets) srv.maxReadBytes st)
    (hmax : (st.cells a).remaining ≤ srv.maxReadBytes)
    (hroom : ((asked budgets a groups).map store.bytes).sum ≤ (st.cells a).remaining) :
    ∀ p ∈ groups.zip (store.read (groups.map (srv.readOperation budgets)) st).1,
      a ∈ p.1.members.map (ownerOf budgets) →
        p.2 = store.answer p.1.key ∨ WriteExecution.isDeferred p.2 = true := by
  induction groups generalizing st with
  | nil => exact nofun
  | cons g groups ih =>
    obtain ⟨hfirst, hcalm', hmax', hroom'⟩ := srv.readOne_own store (hne g mem_cons_self)
      (hlt g mem_cons_self) ha hcalm hmax hroom (sum_bytes_nonneg store _)
    have hrest := ih (forall_mem_cons.mp hne).2
      (forall_mem_cons.mp hlt).2 hcalm' hmax' hroom'
    exact forall_mem_cons.mpr ⟨hfirst, hrest⟩

theorem read_length (ops : List ReadOperation) (st : ReserveState) :
    (store.read ops st).1.length = ops.length := by
  induction ops generalizing st with
  | nil => rfl
  | cons op ops ih => simp [Store.read, ih]

theorem readOne_granted (op : ReadOperation) (hlease : ∀ answer ∈ st.lease, answer = none) :
    (∀ answer ∈ (store.readOne op st).2.lease, answer = none) ∧
      (WriteExecution.isDeferred (store.readOne op st).1 = true → op.budget.waits = true) := by
  unfold Store.readOne
  split
  · exact ⟨hlease, nofun⟩
  rename_i stored _
  obtain ⟨hgranted, hsteady⟩ := op.budget.reserve_granted stored.document.size hlease
  split
  · rename_i err st' hreserve
    rw [hreserve] at hgranted hsteady
    refine ⟨hgranted, fun hdeferred => ?_⟩
    by_contra hwaits
    have hfalse : err.isSentinel .readWorkingSetFull = false :=
      hsteady (Bool.eq_false_iff.mpr hwaits) err rfl
    exact Bool.false_ne_true (hfalse.symm.trans hdeferred)
  · rename_i st' hreserve
    rw [hreserve] at hgranted
    exact ⟨hgranted, nofun⟩

/-- While memory is granted, the memory Store defers a record for its working set only. -/
theorem read_granted (ops : List ReadOperation) (hlease : ∀ answer ∈ st.lease, answer = none) :
    ∀ read ∈ ops.zip (store.read ops st).1,
      WriteExecution.isDeferred read.2 = true → read.1.budget.waits = true := by
  induction ops generalizing st with
  | nil => exact nofun
  | cons op ops ih =>
    obtain ⟨hgranted, hfirst⟩ := readOne_granted store op hlease
    exact forall_mem_cons.mpr ⟨hfirst, ih hgranted⟩

end

theorem readOperation_single (hne : g.members ≠ []) (hone : callerCount budgets = 1) :
    (srv.readOperation budgets g).budget.waits = false := by
  have hcell : ∃ id, sharedSnapshotBudget (g.members.map (ownerOf budgets)) 1 = .cell id := by
    unfold sharedSnapshotBudget
    split
    · exact ⟨_, rfl⟩
    · exact ⟨0, if_pos ⟨rfl, by simpa using hne⟩⟩
  obtain ⟨id, hid⟩ := hcell
  simp only [readOperation, hone, hid]
  split
  · rfl
  · rfl

theorem storedFor_single (hgroups : ∀ g ∈ groups, g.members ≠ []) (hone : callerCount budgets = 1)
    {results : List Storage.ReadResult}
    (honest : ∀ read ∈ (groups.map (srv.readOperation budgets)).zip results,
      WriteExecution.isDeferred read.2 = true → read.1.budget.waits = true)
    (address : Address) : WriteExecution.isDeferred (storedFor groups results address) = false := by
  rw [storedFor]
  cases hfind : (groups.zip results).find? fun p => p.1.key == address with
  | none => rfl
  | some p =>
    have hmem := mem_of_find?_eq_some hfind
    have hread : (srv.readOperation budgets p.1, p.2) ∈
        (groups.map (srv.readOperation budgets)).zip results := by
      rw [zip_map_left]
      exact mem_map.mpr ⟨p, hmem, rfl⟩
    have hwaits := srv.readOperation_single (hgroups p.1 (of_mem_zip hmem).1) hone
    refine Bool.eq_false_iff.mpr fun hdeferred => ?_
    exact Bool.false_ne_true (hwaits.symm.trans (honest _ hread hdeferred))

end Server

end Sink
