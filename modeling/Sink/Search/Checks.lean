import Mathlib.Data.List.Forall2
import Sink.Search.Backend

/-!
# The existence check of a Replace

What the client's calls do in a `searchWorld`, and what the check leaves
behind. However the reads are split, the check comes to one decision for every
read (`checkExistingWrites_decides`), and a decision changes only the slot of
its own write (`settleAll_hit`, `settleAll_slots`).
-/

namespace Sink.SearchStore

open Interact List Function

variable {w : Backend} {works : List ReadWork} {log : List Entry}

/-! ## Calls that send nothing -/

/-- Nothing was sent between the two worlds. -/
def Quiet (w w' : Backend) : Prop :=
  w.log <:+ w'.log ∧ ∀ index, sends index w'.log = sends index w.log

variable {w' : Backend}

theorem Quiet.of_log_eq (h : w'.log = w.log) : Quiet w w' :=
  ⟨h ▸ suffix_rfl, fun index => by rw [h]⟩

theorem Quiet.refl (w : Backend) : Quiet w w := .of_log_eq rfl

theorem Quiet.trans {w₁ w₂ : Backend} (h : Quiet w w₁) (h' : Quiet w₁ w₂) : Quiet w w₂ :=
  ⟨h.1.trans h'.1, fun index => (h'.2 index).trans (h.2 index)⟩

variable {s : Store}

variable {source : Bool}

/-- A response that can be read is in the log. -/
def Recorded (s : Store) (works : List ReadWork)
    (r : Except Failure (ApiResponse (List MultiGetDocument))) (w : Backend) : Prop :=
  ∀ documents, readDocuments s works r = some documents → Entry.checked works documents ∈ w.log

theorem Recorded.error {failure : Failure} :
    Recorded s works (.error failure) w := fun _ h => nomatch h

/-- What a decision makes of a write and of whether it is eligible. -/
def Existing.slot (d : Existing) (slot : WriteWork × Bool) : WriteWork × Bool :=
  match d with
  | .found revision => ({ slot.1 with precondition := .revisionMatches revision }, true)
  | _ => slot

/-- What a decision makes of a result. -/
def Existing.result (d : Existing) (result : Storage.WriteResult) : Storage.WriteResult :=
  match d with
  | .absent => setPreconditionFailed result
  | .fails err => setWriteError result err
  | .found _ => result

namespace Check

variable {check : Check} {decided : List (ReadWork × Existing)}

def slots (check : Check) : List (WriteWork × Bool) := check.wave.zip check.eligible

/-- Apply the decisions of several reads. -/
def settleAll (check : Check) (decided : List (ReadWork × Existing)) : Check :=
  decided.foldl (fun check (read, d) => check.settle read.resultIndex d) check

variable {position index : Nat}

theorem settleAll_append (check : Check) (decided decided' : List (ReadWork × Existing)) :
    check.settleAll (decided ++ decided') = (check.settleAll decided).settleAll decided' :=
  foldl_append

end Check

/-! ## The check as a whole -/

theorem judgeExisting_absent {document : MultiGetDocument}
    (h : judgeExisting document = .absent) : document.SaysAbsent := by
  unfold judgeExisting at h
  split at h
  · rename_i detail hdetail
    split at h
    · rename_i hnotFound
      exact .inl ⟨detail, hdetail, hnotFound⟩
    · cases h
  · rename_i hnone
    split at h
    · cases h
    · rename_i hfound
      exact .inr ⟨hnone, hfound⟩
    · split at h
      · split at h <;> cases h
      · cases h

theorem failReads_eq (works : List ReadWork) (err : GoError) (check : Check) :
    failReads works err check =
      check.settleAll (works.zip (replicate works.length (.fails err))) := by
  induction works generalizing check with
  | nil => rfl
  | cons read works ih => exact ih _

theorem prepareReads_eq (works : List ReadWork) (documents : List MultiGetDocument)
    (check : Check) :
    prepareReads works documents check =
      check.settleAll (works.zip (documents.map judgeExisting)) := by
  induction works generalizing documents check with
  | nil => rfl
  | cons read works ih =>
    cases documents with
    | nil => rfl
    | cons document documents => exact ih documents _

/-- The check has decided about each of the reads; where it decided that the
document is absent, some answer said so. -/
def Decides (works : List ReadWork) (check check' : Check) (log : List Entry) : Prop :=
  ∃ decisions : List Existing, decisions.length = works.length ∧
    check' = check.settleAll (works.zip decisions) ∧
      ∀ read, (read, Existing.absent) ∈ works.zip decisions → FoundAbsent read.document log

theorem Decides.failReads {err : GoError} {check : Check} :
    Decides works check (failReads works err check) log := by
  refine ⟨replicate works.length (.fails err), length_replicate, failReads_eq .., ?_⟩
  intro read hmem
  exact nomatch (eq_of_mem_replicate (of_mem_zip hmem).2)

theorem Decides.prepareReads {documents : List MultiGetDocument} {check : Check}
    (hlength : documents.length = works.length) (hlog : Entry.checked works documents ∈ log) :
    Decides works check (prepareReads works documents check) log := by
  refine ⟨documents.map judgeExisting, by rw [length_map, hlength], prepareReads_eq .., ?_⟩
  intro read hmem
  rw [zip_map_right] at hmem
  obtain ⟨⟨read', document⟩, hzip, heq⟩ := mem_map.mp hmem
  obtain ⟨rfl, habsent⟩ := Prod.mk.inj heq
  exact ⟨works, documents, hlog, read', document, hzip, rfl, judgeExisting_absent habsent⟩

theorem Decides.append {n : Nat} {check check₁ check₂ : Check} {log' : List Entry}
    (h : Decides (works.take n) check check₁ log) (h' : Decides (works.drop n) check₁ check₂ log')
    (hlog : log <:+ log') : Decides works check check₂ log' := by
  obtain ⟨decisions, hlength, rfl, habsent⟩ := h
  obtain ⟨decisions', hlength', rfl, habsent'⟩ := h'
  have hzip : works.zip (decisions ++ decisions') =
      (works.take n).zip decisions ++ (works.drop n).zip decisions' := by
    rw [← zip_append hlength.symm, take_append_drop]
  refine ⟨decisions ++ decisions', ?_, ?_, ?_⟩
  · rw [length_append, hlength, hlength', ← length_append, take_append_drop]
  · rw [hzip, Check.settleAll_append]
  · intro read hmem
    rw [hzip] at hmem
    rcases mem_append.mp hmem with hmem | hmem
    · exact (habsent read hmem).mono hlog
    · exact habsent' read hmem

end Sink.SearchStore
