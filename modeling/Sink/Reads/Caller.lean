import Mathlib.Algebra.BigOperators.Group.List.Basic
import Mathlib.Data.List.Dedup
import Sink.Reads.Snapshots

/-!
# One caller of a combined read

`Server.executeRead` from the side of caller `a`: if the records it asks for fit
into its snapshot limit, and its documents into its output limit, then it is
deferred as a whole or each of its operations is answered as the Store has the
record. A caller that is alone is never deferred, whatever its limits.
-/

namespace Sink

open Grouping Function List Memory

/-! ## Limits -/

theorem freshBudget_remaining (tracker : Option Tracker) (kind : BudgetKind) {maximum : Int}
    (hmax : 0 < maximum) :
    trackerLimit tracker kind maximum ≤ (freshBudget tracker kind maximum).remaining ∧
      0 ≤ (freshBudget tracker kind maximum).remaining ∧
        (freshBudget tracker kind maximum).remaining ≤ maximum := by
  cases tracker with
  | none =>
    have hpos : ¬maximum ≤ 0 := by omega
    simp only [trackerLimit, freshBudget, BudgetCell.new, if_neg hpos]
    omega
  | some t =>
    simp only [trackerLimit, freshBudget, BudgetCell.newTracked]
    omega

/-- Nothing that the memory pool is asked for is refused. -/
structure ReadWorld.Grants (world : ReadWorld) : Prop where
  admission : world.admission = none
  lease : ∀ answer ∈ world.lease, answer = none
  output : ∀ i, world.output i = none

namespace Server

variable (srv : Server) (store : Store) (ops : List (Option Wire.ReadOperation))
  (budgets : Option RequestBudgets) (a : Nat)

/-- The records of the caller's valid operations, in order. -/
def ownAddresses : List Address :=
  ((srv.readIndexes ops).filter fun op => ownerOf budgets op.1 == a).map Prod.snd

/-- The answer to operation `i` if nothing is refused. -/
def directResult (i : Nat) : ReadResult :=
  match srv.readAddress ops i with
  | .error err => setReadFailure (.new i) .invalidArgument (some err) false
  | .ok address => applyReadResult (.new i) (store.answer address)

/-- The caller stays within its limits. -/
structure Within : Prop where
  snapshots : ((srv.ownAddresses ops budgets a).dedup.map store.bytes).sum ≤
    trackerLimit (trackerOf budgets a) .snapshots srv.maxReadBytes
  outputs : ((srv.ownAddresses ops budgets a).map store.bytes).sum ≤
    trackerLimit (trackerOf budgets a) .outputs srv.maxReadBytes

variable {srv store ops budgets a}

theorem readGroups_groups (srv : Server) (ops : List (Option Wire.ReadOperation)) :
    Groups (fun i => (srv.readAddress ops i).toOption) (range ops.length)
      (srv.readGroups ops) :=
  groups_collect _ _

variable {i : Nat} {address : Address}

theorem mem_readIndexes :
    (i, address) ∈ srv.readIndexes ops ↔ i < ops.length ∧ srv.readAddress ops i = .ok address := by
  simp only [readIndexes, mem_filterMap, mem_range, Option.map_eq_some_iff, Prod.mk.injEq]
  constructor
  · rintro ⟨j, hj, address', haddress, rfl, rfl⟩
    refine ⟨hj, ?_⟩
    cases h : srv.readAddress ops j with
    | error err => simp [h, Except.toOption] at haddress
    | ok found => simpa [h, Except.toOption] using haddress
  · rintro ⟨hi, haddress⟩
    exact ⟨i, hi, address, by simp [haddress, Except.toOption], rfl, rfl⟩

theorem mem_ownAddresses : address ∈ srv.ownAddresses ops budgets a ↔
    ∃ i < ops.length, ownerOf budgets i = a ∧ srv.readAddress ops i = .ok address := by
  simp only [ownAddresses, mem_map, mem_filter, beq_iff_eq, Prod.exists, mem_readIndexes]
  constructor
  · rintro ⟨i, address', ⟨⟨hi, haddress⟩, howner⟩, rfl⟩
    exact ⟨i, hi, howner, haddress⟩
  · rintro ⟨i, hi, howner, haddress⟩
    exact ⟨i, address, ⟨⟨hi, haddress⟩, howner⟩, rfl⟩

theorem mem_group {g : Group Address Nat} (hg : g ∈ srv.readGroups ops) :
    i ∈ g.members ↔ i < ops.length ∧ srv.readAddress ops i = .ok g.key := by
  rw [(readGroups_groups srv ops).mem_members hg, mem_range]
  refine and_congr_right fun _ => ?_
  cases srv.readAddress ops i with
  | error err => simp [Except.toOption]
  | ok address => simp [Except.toOption]

theorem asked_mem :
    address ∈ asked budgets a (srv.readGroups ops) ↔ address ∈ srv.ownAddresses ops budgets a := by
  simp only [asked, mem_map, mem_filter, decide_eq_true_eq]
  rw [mem_ownAddresses]
  constructor
  · rintro ⟨g, ⟨hg, i, hi, rfl⟩, rfl⟩
    obtain ⟨hlt, haddress⟩ := (mem_group hg).mp hi
    exact ⟨i, hlt, rfl, haddress⟩
  · rintro ⟨i, hi, rfl, haddress⟩
    have hkey : (srv.readAddress ops i).toOption = some address := by
      rw [haddress]
      rfl
    obtain ⟨g, hg, rfl⟩ :=
      (readGroups_groups srv ops).covers i (mem_range.mpr hi) address hkey
    exact ⟨g, ⟨hg, i, (mem_group hg).mpr ⟨hi, haddress⟩, rfl⟩, rfl⟩

/-- The storage reads a caller pays for are its distinct records. -/
theorem asked_sum : ((asked budgets a (srv.readGroups ops)).map store.bytes).sum =
    ((srv.ownAddresses ops budgets a).dedup.map store.bytes).sum := by
  have hnodup : (asked budgets a (srv.readGroups ops)).Nodup :=
    (readGroups_groups srv ops).nodup.sublist (filter_sublist.map _)
  have hperm : (asked budgets a (srv.readGroups ops)).Perm (srv.ownAddresses ops budgets a).dedup :=
    (perm_ext_iff_of_nodup hnodup (nodup_dedup _)).mpr fun address => by
      rw [asked_mem, mem_dedup]
  exact (hperm.map _).sum_eq

/-! ## Snapshots -/

section

variable {world : ReadWorld} (hgrants : world.Grants) (hmax : 0 < srv.maxReadBytes)
  (hlt : ∀ i < ops.length, ownerOf budgets i < callerCount budgets)

include hlt in
theorem group_owners : ∀ g ∈ srv.readGroups ops, ∀ i ∈ g.members,
    ownerOf budgets i < callerCount budgets :=
  fun _ hg i hi => hlt i ((mem_group hg).mp hi).1

include hgrants hmax in
theorem readCells_calm :
    Calm (callerCount budgets) srv.maxReadBytes ⟨srv.readCells budgets, world.lease⟩ := by
  refine ⟨?_, hgrants.lease⟩
  have hpos : ¬srv.maxReadBytes ≤ 0 := by omega
  simp [readCells, BudgetCell.new, hpos]

/-- The answer for a record of the request is one of the storage's. -/
theorem readSnapshots_mem (store : Store) (world : ReadWorld)
    (budgets : Option RequestBudgets) {address : Address} (hi : i < ops.length)
    (haddress : srv.readAddress ops i = .ok address) :
    ∃ g ∈ srv.readGroups ops, g.key = address ∧
      (g, srv.readSnapshots store world ops budgets address) ∈ (srv.readGroups ops).zip
        (store.read ((srv.readGroups ops).map (srv.readOperation budgets))
          ⟨srv.readCells budgets, world.lease⟩).1 := by
  have hgroups := readGroups_groups srv ops
  have hkey : (srv.readAddress ops i).toOption = some address := by
    rw [haddress]
    rfl
  obtain ⟨g, hg, hgkey⟩ := hgroups.covers i (mem_range.mpr hi) address hkey
  generalize hresults : (store.read ((srv.readGroups ops).map (srv.readOperation budgets))
    ⟨srv.readCells budgets, world.lease⟩).1 = results
  have hlen : results.length = (srv.readGroups ops).length := by
    rw [← hresults, read_length, length_map]
  have hsnapshots : srv.readSnapshots store world ops budgets address =
      storedFor (srv.readGroups ops) results address := by
    rw [← hresults]
    rfl
  rw [hsnapshots, storedFor]
  cases hfind : ((srv.readGroups ops).zip results).find? fun p => p.1.key == address with
  | none =>
    obtain ⟨k, hk⟩ := mem_iff_getElem?.mp hg
    have hlt : k < results.length := by
      rw [hlen]
      exact (List.getElem?_eq_some_iff.mp hk).1
    have hmem : (g, results[k]) ∈ (srv.readGroups ops).zip results :=
      mem_iff_getElem?.mpr ⟨k, by simp [getElem?_zip_eq_some, hk, hlt]⟩
    have hnone := find?_eq_none.mp hfind _ hmem
    simp [hgkey] at hnone
  | some p =>
    have hmem := mem_of_find?_eq_some hfind
    have hpkey : p.1.key = address := by simpa using find?_some hfind
    exact ⟨p.1, (of_mem_zip hmem).1, hpkey, hmem⟩

include hgrants hmax hlt in
theorem readSnapshots_own (ha : a < callerCount budgets) (hwithin : Within srv store ops budgets a)
    (hfull : srv.fullFor ops budgets (srv.readSnapshots store world ops budgets) a = false)
    {address : Address} (hown : address ∈ srv.ownAddresses ops budgets a) :
    srv.readSnapshots store world ops budgets address = store.answer address := by
  obtain ⟨i, hi, howner, haddress⟩ := mem_ownAddresses.mp hown
  obtain ⟨g, hg, rfl, hmem⟩ := readSnapshots_mem store world budgets hi haddress
  obtain ⟨hlimit, -, hle⟩ := freshBudget_remaining (trackerOf budgets a) .snapshots hmax
  have hcell : srv.readCells budgets a = freshBudget (trackerOf budgets a) .snapshots
      srv.maxReadBytes := by
    rw [readCells, update_of_ne (Nat.ne_of_lt ha)]
    rfl
  rw [← hcell] at hlimit hle
  have hread := srv.read_own store (srv.readGroups ops) (readGroups_groups srv ops).nonempty
    (group_owners hlt) ha (readCells_calm hgrants hmax) hle
    (by rw [asked_sum]; exact Int.le_trans hwithin.snapshots hlimit) _ hmem
    (mem_map.mpr ⟨i, (mem_group hg).mpr ⟨hi, haddress⟩, howner⟩)
  refine hread.resolve_right fun hdeferred => ?_
  have hany : srv.fullFor ops budgets (srv.readSnapshots store world ops budgets) a = true := by
    refine any_eq_true.mpr ⟨(i, g.key), mem_readIndexes.mpr ⟨hi, haddress⟩, ?_⟩
    simp [howner, hdeferred]
  rw [hfull] at hany
  cases hany

include hgrants in
theorem readSnapshots_single (hone : callerCount budgets = 1) (address : Address) :
    WriteExecution.isDeferred (srv.readSnapshots store world ops budgets address) = false :=
  srv.storedFor_single (readGroups_groups srv ops).nonempty hone
    (read_granted store _ hgrants.lease) address

include hgrants in
/-- An admitted read over the memory Store responds to its snapshots. -/
theorem read_over {req : ReadRequest} (hne : req.operations.isEmpty = false)
    (hcount : srv.validateOperationCount req.operations.length = none) :
    srv.read (world.over store) req budgets =
      .ok (srv.executeRead req.operations budgets
        (srv.readSnapshots store world req.operations budgets) world.output) := by
  simp only [read, hne, hcount, ReadWorld.over, hgrants.admission, readSnapshots]
  cases hgroups : srv.readGroups req.operations with
  | nil => rfl
  | cons g groups =>
    rw [read_length, length_map, if_neg (not_not.mpr rfl)]
    rfl

end

/-! ## Outputs -/

section

variable {full : Nat → Bool} {stored : Address → Storage.ReadResult} {st : OutputState}
  {op : Nat × Address}

theorem chargeOutput_other (howner : ownerOf budgets op.1 ≠ a) :
    (chargeOutput budgets full stored st op).cells a = st.cells a ∧
      ∀ i, ownerOf budgets i = a →
        (chargeOutput budgets full stored st op).refused i = st.refused i := by
  unfold chargeOutput
  dsimp only
  split
  · exact ⟨rfl, fun _ _ => rfl⟩
  split
  · split
    · refine ⟨rfl, fun i hi => update_of_ne (fun heq => howner ?_) ..⟩
      rw [← heq, hi]
    · exact ⟨update_of_ne howner.symm .., fun _ _ => rfl⟩
  · exact ⟨rfl, fun _ _ => rfl⟩

/-- An operation of a caller with room for its document. -/
theorem chargeOutput_own (howner : ownerOf budgets op.1 = a) (hfull : full a = false)
    (hstored : stored op.2 = store.answer op.2)
    (hroom : store.bytes op.2 ≤ (st.cells a).remaining) :
    ((chargeOutput budgets full stored st op).cells a).remaining =
        (st.cells a).remaining - store.bytes op.2 ∧
      (chargeOutput budgets full stored st op).refused = st.refused := by
  unfold chargeOutput
  simp only [howner, hfull, hstored, Bool.false_eq_true, if_false]
  cases hrecord : store.records op.2 with
  | none => simp [Store.answer, Store.bytes, hrecord]
  | some found =>
    simp only [Store.bytes, hrecord] at hroom
    have hfits : (st.cells a).Fits found.document.size :=
      ⟨found.document.size_nonneg, hroom⟩
    simp only [Store.answer, Store.bytes, hrecord, if_true, hfits.reserve,
      update_self, BudgetCell.charge, and_self]

theorem chargeOutputs_own (store : Store) (l : List (Nat × Address)) (hfull : full a = false)
    (hstored : ∀ op ∈ l, ownerOf budgets op.1 = a → stored op.2 = store.answer op.2)
    (hroom : ((l.filter fun op => ownerOf budgets op.1 == a).map fun op =>
      store.bytes op.2).sum ≤ (st.cells a).remaining) :
    ∀ i, ownerOf budgets i = a →
      (l.foldl (chargeOutput budgets full stored) st).refused i = st.refused i := by
  induction l generalizing st with
  | nil => exact fun _ _ => rfl
  | cons op l ih =>
    intro i hi
    have hrest := fun op' h => hstored op' (mem_cons_of_mem op h)
    rw [foldl_cons]
    by_cases howner : ownerOf budgets op.1 = a
    · rw [filter_cons_of_pos (by simpa using howner), map_cons, sum_cons] at hroom
      have hnonneg : 0 ≤ ((l.filter fun op => ownerOf budgets op.1 == a).map fun op =>
          store.bytes op.2).sum := by
        have := sum_bytes_nonneg store
          ((l.filter fun op => ownerOf budgets op.1 == a).map Prod.snd)
        rwa [map_map] at this
      have hfirst : store.bytes op.2 ≤ (st.cells a).remaining := by omega
      obtain ⟨hcell, hrefused⟩ := chargeOutput_own howner hfull
        (hstored op mem_cons_self howner) hfirst
      rw [ih hrest (by rw [hcell]; omega) i hi, hrefused]
    · rw [filter_cons_of_neg (by simpa using howner)] at hroom
      obtain ⟨hcell, hrefused⟩ := @chargeOutput_other budgets a full stored st op howner
      rw [ih hrest (by rw [hcell]; exact hroom) i hi, hrefused i hi]

theorem chargeOutput_balance {K : Int} (a : Nat)
    (h : st.bytes a + (st.cells a).remaining = K ∧ 0 ≤ (st.cells a).remaining) :
    let st' := chargeOutput budgets full stored st op
    st'.bytes a + (st'.cells a).remaining = K ∧ 0 ≤ (st'.cells a).remaining := by
  intro st'
  have hst : st' = chargeOutput budgets full stored st op := rfl
  unfold chargeOutput at hst
  dsimp only at hst
  split at hst
  · exact hst ▸ h
  split at hst
  · split at hst
    · rw [hst]
      exact h
    rename_i cell hcell
    obtain ⟨haccept, rfl⟩ := BudgetCell.reserve_ok hcell
    simp only [BudgetCell.refuses, readOverhead] at haccept
    rw [hst]
    by_cases howner : a = ownerOf budgets op.1
    · subst howner
      simp only [update_self, BudgetCell.charge, readOverhead]
      omega
    · simp only [update_of_ne howner]
      exact h
  · exact hst ▸ h

theorem chargeOutputs_balance (l : List (Nat × Address)) {K : Int}
    (h : st.bytes a + (st.cells a).remaining = K ∧ 0 ≤ (st.cells a).remaining) :
    (l.foldl (chargeOutput budgets full stored) st).bytes a ≤ K := by
  induction l generalizing st with
  | nil =>
    show st.bytes a ≤ K
    omega
  | cons op l ih => exact ih (chargeOutput_balance a h)

theorem deferOutputs_of_deferred {bytes owners remaining deferred} (h : deferred a = true) :
    deferOutputs bytes owners remaining deferred a = true := by
  induction owners generalizing remaining deferred with
  | nil => exact h
  | cons owner rest ih =>
    unfold deferOutputs
    split
    · refine ih ?_
      by_cases heq : a = owner
      · simp [heq]
      · rw [update_of_ne heq]
        exact h
    · exact ih h

theorem fullFor_of_live (hlive : srv.deferredCallers ops budgets stored a = false) :
    srv.fullFor ops budgets stored a = false := by
  cases hfull : srv.fullFor ops budgets stored a with
  | false => rfl
  | true =>
    rw [deferredCallers, deferOutputs_of_deferred hfull] at hlive
    cases hlive

/-- A caller's outputs fit into the server's limit. -/
theorem chargedOutputs_bytes (hmax : 0 < srv.maxReadBytes) (a : Nat) :
    (srv.chargedOutputs ops budgets stored).bytes a ≤ srv.maxReadBytes := by
  obtain ⟨-, hnonneg, hle⟩ := freshBudget_remaining (trackerOf budgets a) .outputs hmax
  exact Int.le_trans (chargeOutputs_balance _ ⟨Int.zero_add _, hnonneg⟩) hle

theorem deferredCallers_single (hmax : 0 < srv.maxReadBytes) (hone : callerCount budgets = 1)
    (hstored : ∀ address, WriteExecution.isDeferred (stored address) = false) :
    srv.deferredCallers ops budgets stored 0 = false := by
  have hbytes : ¬srv.maxReadBytes < (srv.chargedOutputs ops budgets stored).bytes 0 :=
    Int.not_lt.mpr (chargedOutputs_bytes hmax 0)
  simp only [deferredCallers, hone, range_one, deferOutputs, if_neg hbytes]
  refine any_eq_false.mpr fun op _ => ?_
  simp [hstored op.2]

end

/-! ## Answers -/

section

variable {world : ReadWorld} (hgrants : world.Grants) (hmax : 0 < srv.maxReadBytes)
  (hlt : ∀ i < ops.length, ownerOf budgets i < callerCount budgets)

include hgrants hmax hlt in
theorem chargedOutputs_refused (ha : a < callerCount budgets)
    (hwithin : Within srv store ops budgets a)
    (hfull : srv.fullFor ops budgets (srv.readSnapshots store world ops budgets) a = false)
    (howner : ownerOf budgets i = a) :
    (srv.chargedOutputs ops budgets (srv.readSnapshots store world ops budgets)).refused i =
      none := by
  refine chargeOutputs_own store _ hfull (fun op hop hopOwner => ?_) ?_ i howner
  · refine readSnapshots_own hgrants hmax hlt ha hwithin hfull ?_
    exact mem_map.mpr ⟨op, mem_filter.mpr ⟨hop, by simpa using hopOwner⟩, rfl⟩
  · have houtputs := hwithin.outputs
    rw [ownAddresses, map_map] at houtputs
    exact Int.le_trans houtputs (freshBudget_remaining _ _ hmax).1

include hgrants hmax hlt in
theorem readResult_own (ha : a < callerCount budgets) (hwithin : Within srv store ops budgets a)
    {stored : Address → Storage.ReadResult}
    (hstored : stored = srv.readSnapshots store world ops budgets)
    (hlive : srv.deferredCallers ops budgets stored a = false) (hi : i < ops.length)
    (howner : ownerOf budgets i = a) :
    srv.readResult world.output ops stored (srv.chargedOutputs ops budgets stored).refused
        (srv.deferredCallers ops budgets stored (ownerOf budgets i)) i =
      srv.directResult store ops i := by
  subst hstored
  have hfull := fullFor_of_live hlive
  unfold readResult directResult
  cases haddress : srv.readAddress ops i with
  | error err => rfl
  | ok address =>
    have hstored := readSnapshots_own hgrants hmax hlt ha hwithin hfull
      (mem_ownAddresses.mpr ⟨i, hi, howner, haddress⟩)
    have hrefused := chargedOutputs_refused hgrants hmax hlt ha hwithin hfull howner
    simp [hstored, hrefused, howner, hlive, hgrants.output i]

end

end Server

end Sink
