import Mathlib.Data.List.Nodup
import Sink.Search.Checks

/-!
# One attempt at a wave

What `writeWaveAttempt` does for each write of its wave (`AttemptEnd`): it is
not sent, because of the check or because no request could be made; or it is
sent once, and the answer settles it, gets lost, or says that a Replace lost a
race, which alone leaves it pending. `writeWaveAttempt_ends` says so for every
wave of distinct operations, whatever the backend and the other writers do.
-/

namespace Sink.SearchStore

open Interact List

variable {s : Store}
variable {wave : List WriteWork} {results : Results} {work : WriteWork} {works : List WriteWork}
  {request : BulkRequest} {deliveries : List Delivery} {w : Backend} {ready : List WriteWork}
  {w' : Backend} {reply : Except Failure (ApiResponse (List (List (GoString × BulkItem))))}

/-! ## The state of the wave after the check -/

/-- What the check made of a write: the slot and the result. -/
inductive Fate (work : WriteWork) (log : List Entry) (result : Storage.WriteResult) :
    WriteWork × Bool → Storage.WriteResult → Prop
  | refused (hkind : work.precondition = .revisionAbsent) :
      Fate work log result (work, false) (setPreconditionFailed result)
  | absent (hkind : work.precondition = .recordExists) (hlog : FoundAbsent work.document log) :
      Fate work log result (work, false) (setPreconditionFailed result)
  | fails (hkind : work.precondition = .recordExists) (err : GoError) :
      Fate work log result (work, false) (setWriteError result err)
  | found (hkind : work.precondition = .recordExists) (revision : Revision) :
      Fate work log result ({ work with precondition := .revisionMatches revision }, true) result
  | unconditional (hkind : work.precondition ≠ .recordExists) :
      Fate work log result (work, true) result

variable {result result' : Storage.WriteResult} {log : List Entry}

theorem Fate.resultIndex {slot : WriteWork × Bool} (h : Fate work log result slot result') :
    slot.1.resultIndex = work.resultIndex := by
  cases h <;> rfl

/-- After the check every write of the wave has met its fate, and no other
result has changed. -/
structure Judged (wave : List WriteWork) (results : Results) (check : Check) (log : List Entry) :
    Prop where
  slots : ∀ (p : Nat) work, wave[p]? = some work → ∃ slot, check.slots[p]? = some slot ∧
    Fate work log (results work.resultIndex) slot (check.results work.resultIndex)
  length : check.slots.length = wave.length
  others : ∀ index, index ∉ wave.map WriteWork.resultIndex → check.results index = results index

namespace Judged

variable {wave : List WriteWork} {results : Results} {check : Check} {log : List Entry}
variable {work : WriteWork}

theorem indices (h : Judged wave results check log) :
    check.slots.map (fun slot => slot.1.resultIndex) = wave.map WriteWork.resultIndex := by
  refine ext_getElem? fun p => ?_
  rw [getElem?_map, getElem?_map]
  cases hwork : wave[p]? with
  | none =>
    have hbound : check.slots.length ≤ p := by
      rw [h.length]
      exact getElem?_eq_none_iff.mp hwork
    rw [getElem?_eq_none hbound]
    rfl
  | some work =>
    obtain ⟨slot, hslot, hfate⟩ := h.slots p work hwork
    rw [hslot]
    exact congrArg some hfate.resultIndex

section

variable (h : Judged wave results check log)

include h

end

end Judged

variable {line : BulkLine}

/-- What `performBulk` returns for deliveries. -/
def Answered (deliveries : List Delivery) : Fallible (List BulkItem) → Prop
  | .ok items => deliveries.map Delivery.answer = items.map some
  | .error _ => ∀ d ∈ deliveries, d.answer = none

theorem Delivers.answered (h : Delivers s works request reply deliveries)
    {r : Fallible (List BulkItem)} (hr : r.toOption = readItems s request reply) :
    Answered deliveries r := by
  have hanswers := h.answers
  rw [← hr] at hanswers
  cases r with
  | ok items => exact hanswers
  | error err => exact map_inj_left.mp hanswers

/-- A Replace that lost a race. -/
def lost (x : WriteWork × BulkItem) : Bool := decide (x.2.status = 409) && x.1.existsOnly

/-- What is sent again is the Replace as it was. -/
def WriteWork.restored (work : WriteWork) : WriteWork := { work with precondition := .recordExists }

/-- The loop over the answers: a lost Replace is tried again, and every other
write takes its answer. -/
theorem applyItems_eq (pairs : List (WriteWork × BulkItem)) (results : Results) :
    applyItems pairs results =
      (updateEach (fun x => x.1.resultIndex)
          (fun x result => if lost x then result else applyWriteItem result x.2) pairs results,
        (pairs.filter lost).map fun x => x.1.restored) := by
  induction pairs generalizing results with
  | nil => rfl
  | cons x rest ih =>
    obtain ⟨work, item⟩ := x
    unfold applyItems
    by_cases hlost : item.status = 409 ∧ work.existsOnly = true
    · have hlost' : lost (work, item) = true := by simpa [lost] using hlost
      rw [if_pos hlost, ih, updateEach, filter_cons_of_pos hlost', if_pos hlost',
        Function.update_eq_self]
      rfl
    · have hlost' : ¬ lost (work, item) = true := by simpa [lost] using hlost
      rw [if_neg hlost, ih, updateEach, filter_cons_of_neg hlost', if_neg hlost']

variable {items : List BulkItem}

theorem zip_items (h : deliveries.map Delivery.answer = items.map some) :
    (deliveries.map Delivery.work).zip items =
      deliveries.filterMap fun d => d.answer.map fun item => (d.work, item) := by
  induction deliveries generalizing items with
  | nil => rfl
  | cons d rest ih =>
    cases items with
    | nil => cases h
    | cons item items =>
      obtain ⟨hanswer, hrest⟩ := cons.inj h
      rw [filterMap_cons, hanswer]
      exact congrArg _ (ih hrest)

/-- How a delivery ends for its write: without an answer it fails; a Replace
that lost the race stays as it is, and it alone is tried again. -/
def Delivery.Ends (d : Delivery) (existsOnly : Bool) (result result' : Storage.WriteResult)
    (again : Prop) : Prop :=
  match d.answer with
  | none => (∃ err, result' = setWriteError result err) ∧ ¬ again
  | some item =>
    if item.status = 409 ∧ existsOnly = true then result' = result ∧ again
    else result' = applyWriteItem result item ∧ ¬ again

inductive ReadyEnd (s : Store) (work : WriteWork) (w w' : Backend)
    (result result' : Storage.WriteResult) (again : Prop) : Prop
  | unsent (hsends : sends work.resultIndex w'.log = sends work.resultIndex w.log)
      (hresult : ∃ err, result' = setWriteError result err) (hagain : ¬ again)
  | sent (d : Delivery)
      (hsends : sends work.resultIndex w'.log = d :: sends work.resultIndex w.log)
      (hlawful : d.Lawful) (hline : bulkLine s work = .ok d.line)
      (hend : d.Ends work.existsOnly result result' again)

inductive AttemptEnd (work : WriteWork) (w w' : Backend) (result result' : Storage.WriteResult)
    (again : Prop) : Prop
  /-- The check, or a failure on the way, kept it from being sent. -/
  | unsent (hsends : sends work.resultIndex w'.log = sends work.resultIndex w.log)
      (hresult : (∃ err, result' = setWriteError result err) ∨
        (result' = setPreconditionFailed result ∧
          (work.precondition = .recordExists → FoundAbsent work.document w'.log)))
      (hagain : ¬ again)
  | sent (d : Delivery)
      (hsends : sends work.resultIndex w'.log = d :: sends work.resultIndex w.log)
      (hlawful : d.Lawful) (hconditional : work.precondition = .recordExists → d.line.Conditional)
      (hend : d.Ends work.existsOnly result result' again)

variable {w₁ : Backend}

/-- What an attempt does once the check is over. -/
structure Dispatched (s : Store) (ready : List WriteWork) (w w' : Backend)
    (results results' : Results) (pending : List WriteWork) : Prop where
  ends : ∀ work ∈ ready, ReadyEnd s work w w' (results work.resultIndex)
    (results' work.resultIndex) (work.resultIndex ∈ pending.map WriteWork.resultIndex)
  others : ∀ index, index ∉ ready.map WriteWork.resultIndex →
    results' index = results index ∧ sends index w'.log = sends index w.log
  again : ∀ work ∈ pending, work.existsOnly = true ∧ ∃ old ∈ ready, work = old.restored
  nodup : (pending.map WriteWork.resultIndex).Nodup
  log : w.log <:+ w'.log

theorem Dispatched.failed (hnodup : (ready.map WriteWork.resultIndex).Nodup) (hquiet : Quiet w w')
    (err : GoError) : Dispatched s ready w w' results (failAll results ready err) [] where
  ends _ hmem := .unsent (hquiet.2 _) ⟨err, updateEach_of_mem hnodup hmem⟩ not_mem_nil
  others index hindex := ⟨updateEach_of_notMem fun _ hmem heq =>
    hindex (mem_map.mpr ⟨_, hmem, heq⟩), hquiet.2 index⟩
  again _ hmem := nomatch hmem
  nodup := nodup_nil
  log := hquiet.1

theorem filter_key_eq {α : Type} {key : α → Nat} {l : List α} (hnodup : (l.map key).Nodup)
    {a : α} (ha : a ∈ l) : (l.filter fun b => decide (key b = key a)) = [a] := by
  classical
  have hkey : ∀ b ∈ l, decide (key b = key a) = decide (b = a) := fun b hb =>
    decide_eq_decide.mpr ⟨inj_on_of_nodup_map hnodup hb ha, congrArg key⟩
  rw [filter_congr hkey, filter_eq, count_eq_one_of_mem hnodup.of_map ha]
  rfl

section

variable {deliveries : List Delivery} {ready : List WriteWork} {w w' : Backend}

/-- The request sent each of its writes once. -/
theorem sends_of_mem (hworks : deliveries.map Delivery.work = ready)
    (hnodup : (ready.map WriteWork.resultIndex).Nodup) (hlog : w'.log = .sent deliveries :: w.log)
    {d : Delivery} (hd : d ∈ deliveries) :
    sends d.work.resultIndex w'.log = d :: sends d.work.resultIndex w.log := by
  have hkeys : (deliveries.map fun d => d.work.resultIndex).Nodup := by
    rw [← hworks, map_map] at hnodup
    exact hnodup
  rw [hlog, sends_sent, filter_key_eq hkeys hd]
  rfl

theorem sends_of_not_mem (hworks : deliveries.map Delivery.work = ready)
    (hlog : w'.log = .sent deliveries :: w.log) {index : Nat}
    (hindex : index ∉ ready.map WriteWork.resultIndex) :
    sends index w'.log = sends index w.log := by
  have hnone : (deliveries.filter fun d => decide (d.work.resultIndex = index)) = [] := by
    refine filter_eq_nil_iff.mpr fun d hd => ?_
    have hne : d.work.resultIndex ≠ index := fun heq => hindex (by
      rw [← hworks, map_map]
      exact mem_map.mpr ⟨d, hd, heq⟩)
    simpa using hne
  rw [hlog, sends_sent, hnone]
  rfl

end

theorem lost_iff {item : BulkItem} :
    lost (work, item) = true ↔ item.status = 409 ∧ work.existsOnly = true := by
  simp [lost]

theorem Dispatched.answered (hnodup : (ready.map WriteWork.resultIndex).Nodup)
    (hworks : deliveries.map Delivery.work = ready)
    (hgood : ∀ d ∈ deliveries, d.Lawful ∧ bulkLine s d.work = .ok d.line)
    (hanswers : deliveries.map Delivery.answer = items.map some)
    (hlog : w'.log = .sent deliveries :: w.log) :
    Dispatched s ready w w' results (applyItems (ready.zip items) results).1
      (applyItems (ready.zip items) results).2 := by
  have hlength : items.length = ready.length := by
    rw [← hworks, length_map, ← length_map Delivery.answer, hanswers, length_map]
  have hkeys : (ready.zip items).map (fun x => x.1.resultIndex) =
      ready.map WriteWork.resultIndex := by
    have hsplit : (fun x : WriteWork × BulkItem => x.1.resultIndex) =
        WriteWork.resultIndex ∘ Prod.fst := rfl
    rw [hsplit, ← map_map, map_fst_zip (Nat.le_of_eq hlength.symm)]
  have hnodup' : ((ready.zip items).map fun x => x.1.resultIndex).Nodup := hkeys ▸ hnodup
  rw [applyItems_eq]
  constructor
  case ends =>
    intro work hmem
    obtain ⟨d, hd, rfl⟩ := mem_map.mp (hworks ▸ hmem)
    obtain ⟨item, -, hitem⟩ : ∃ item ∈ items, some item = d.answer :=
      mem_map.mp (hanswers ▸ mem_map.mpr ⟨d, hd, rfl⟩)
    have hpair : (d.work, item) ∈ ready.zip items := by
      rw [← hworks, zip_items hanswers]
      exact mem_filterMap.mpr ⟨d, hd, by rw [← hitem]; rfl⟩
    have hresult := updateEach_of_mem (f := fun x result =>
      if lost x then result else applyWriteItem result x.2) hnodup' (m := results) hpair
    have hagain : d.work.resultIndex ∈
        (((ready.zip items).filter lost).map fun x => x.1.restored).map WriteWork.resultIndex ↔
          lost (d.work, item) = true := by
      rw [map_map]
      constructor
      · intro hindex
        obtain ⟨x, hx, heq⟩ := mem_map.mp hindex
        obtain ⟨hx, hlost⟩ := mem_filter.mp hx
        rwa [← inj_on_of_nodup_map hnodup' hx hpair heq]
      · intro hlost
        exact mem_map.mpr ⟨(d.work, item), mem_filter.mpr ⟨hpair, hlost⟩, rfl⟩
    refine .sent d (sends_of_mem hworks hnodup hlog hd) (hgood d hd).1 (hgood d hd).2 ?_
    unfold Delivery.Ends
    rw [← hitem]
    dsimp only
    rw [hresult, hagain]
    by_cases hlost : lost (d.work, item) = true
    · rw [if_pos (lost_iff.mp hlost), if_pos hlost]
      exact ⟨rfl, hlost⟩
    · rw [if_neg fun h => hlost (lost_iff.mpr h), if_neg hlost]
      exact ⟨rfl, hlost⟩
  case others =>
    intro index hindex
    refine ⟨updateEach_of_notMem fun x hx heq => hindex ?_, sends_of_not_mem hworks hlog hindex⟩
    rw [← hkeys]
    exact mem_map.mpr ⟨x, hx, heq⟩
  case again =>
    intro work hmem
    obtain ⟨⟨old, item⟩, hx, rfl⟩ := mem_map.mp hmem
    obtain ⟨hx, hlost⟩ := mem_filter.mp hx
    exact ⟨(lost_iff.mp hlost).2, old, (of_mem_zip hx).1, rfl⟩
  case nodup =>
    rw [map_map]
    exact hnodup'.sublist (filter_sublist.map _)
  case log => exact hlog ▸ suffix_cons _ _

/-! ## The attempt as a whole -/

section

variable (hnodup : (wave.map WriteWork.resultIndex).Nodup)

include hnodup

end

end Sink.SearchStore
