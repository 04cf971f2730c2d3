import Sink.Lib.Once
import Sink.MemoryStore

/-!
# Revisions of the memory store

Every applied write takes the next value of the store's counter. As long as
the counter does not wrap, two applied writes never get the same revision,
whatever is deleted in between; this is what makes an equal revision mean
an unchanged record.
-/

namespace Sink

open Interact List Function

namespace Memory

/-- Eight bytes hold a `uint64`. -/
theorem bigEndian64_injective {m n : Nat} (hm : m < 2 ^ 64) (hn : n < 2 ^ 64)
    (h : bigEndian64 m = bigEndian64 n) : m = n := by
  have hbyte : ∀ {a b : Nat}, UInt8.ofNat a = UInt8.ofNat b → a % 256 = b % 256 := by
    intro a b hab
    simpa using congrArg UInt8.toNat hab
  simp only [bigEndian64, map_cons, map_nil, cons.injEq, and_true] at h
  obtain ⟨h7, h6, h5, h4, h3, h2, h1, h0⟩ := h
  have := hbyte h7
  have := hbyte h6
  have := hbyte h5
  have := hbyte h4
  have := hbyte h3
  have := hbyte h2
  have := hbyte h1
  have := hbyte h0
  omega

/-- The counter, now at `n`, does not produce the revision before it passes
`bound`. -/
def NotAhead (n bound : Nat) (revision : Revision) : Prop :=
  ∀ m, n < m → m ≤ bound → revision ≠ bigEndian64 m

theorem NotAhead.mono {n n' bound : Nat} {revision : Revision} (h : NotAhead n bound revision)
    (hn : n ≤ n') : NotAhead n' bound revision :=
  fun m hm => h m (by omega)

theorem notAhead_of_issued {m n bound : Nat} (hm : m ≤ n) (hbound : bound < 2 ^ 64) :
    NotAhead n bound (bigEndian64 m) := by
  intro m' hm' hle heq
  have := bigEndian64_injective (by omega) (by omega) heq
  omega

def applied (results : List Storage.WriteResult) : Nat :=
  results.countP fun r => decide (r.status = .applied)

namespace Store

variable {s : Store}
variable {op : Storage.WriteOperation} {ops : List Storage.WriteOperation}

theorem writeOne_of_match (h : matchesPrecondition op.precondition (s.records op.address) = true) :
    s.writeOne op = (⟨.applied, bigEndian64 s.newRevision, none⟩,
      { records := update s.records op.address
          (some ⟨op.document, bigEndian64 s.newRevision⟩)
        nextRevision := s.newRevision }) := if_pos h

theorem writeOne_of_mismatch
    (h : ¬ matchesPrecondition op.precondition (s.records op.address) = true) :
    s.writeOne op = (⟨.preconditionFailed, [], none⟩, s) := if_neg h

theorem write_cons (op : Storage.WriteOperation) (ops : List Storage.WriteOperation) :
    s.write (op :: ops) = ((s.writeOne op).1 :: ((s.writeOne op).2.write ops).1,
      ((s.writeOne op).2.write ops).2) := rfl

theorem write_length (ops : List Storage.WriteOperation) : (s.write ops).1.length = ops.length := by
  induction ops generalizing s with
  | nil => rfl
  | cons op ops ih => rw [write_cons, length_cons, ih, length_cons]

theorem writeOne_counter (h : s.nextRevision + applied (s.write (op :: ops)).1 < 2 ^ 64) :
    s.nextRevision ≤ (s.writeOne op).2.nextRevision ∧
      (s.writeOne op).2.nextRevision + applied ((s.writeOne op).2.write ops).1 =
        s.nextRevision + applied (s.write (op :: ops)).1 := by
  rw [write_cons] at h ⊢
  by_cases hm : matchesPrecondition op.precondition (s.records op.address) = true
  · rw [writeOne_of_match hm] at h ⊢
    simp only [applied, countP_cons, decide_true, if_true] at h ⊢
    have hnew : s.newRevision = s.nextRevision + 1 := Nat.mod_eq_of_lt (by omega)
    simp only [hnew]
    omega
  · rw [writeOne_of_mismatch hm]
    simp [applied]

theorem write_counter (h : s.nextRevision + applied (s.write ops).1 < 2 ^ 64) :
    (s.write ops).2.nextRevision = s.nextRevision + applied (s.write ops).1 := by
  induction ops generalizing s with
  | nil => rfl
  | cons op ops ih =>
    obtain ⟨-, hrest⟩ := writeOne_counter h
    rw [← hrest] at h ⊢
    exact ih h

theorem writeOne_apart {a : Address} (h : op.address ≠ a) :
    (s.writeOne op).2.records a = s.records a := by
  unfold writeOne
  split
  · exact update_of_ne (Ne.symm h) _ _
  · rfl

theorem write_apart {a : Address} (h : ∀ op ∈ ops, op.address ≠ a) :
    (s.write ops).2.records a = s.records a := by
  induction ops generalizing s with
  | nil => rfl
  | cons op ops ih =>
    exact (ih fun o ho => h o (mem_cons_of_mem _ ho)).trans (writeOne_apart (h op mem_cons_self))

/-- What the only write to a record among others does to it: it is applied
and the record is replaced under a revision the counter has just passed, or
it is not and the record stays. -/
inductive Lands (s : Store) (w : Storage.WriteOperation) (s' : Store) :
    Storage.WriteResult → Prop where
  | replaced {reply : Storage.WriteResult} {m : Nat} (happlied : reply.status = .applied)
      (hmatch : matchesPrecondition w.precondition (s.records w.address) = true)
      (hold : s.nextRevision < m) (hnew : m ≤ s'.nextRevision)
      (hrecord : s'.records w.address = some ⟨w.document, bigEndian64 m⟩) : Lands s w s' reply
  | kept {reply : Storage.WriteResult} (hreply : reply.status ≠ .applied)
      (hrecord : s'.records w.address = s.records w.address) : Lands s w s' reply

variable {w : Storage.WriteOperation}

theorem Lands.later {s₁ s₂ : Store} {reply : Storage.WriteResult} (h : Lands s w s₁ reply)
    (hcounter : s₁.nextRevision ≤ s₂.nextRevision)
    (hrecord : s₂.records w.address = s₁.records w.address) : Lands s w s₂ reply := by
  cases h with
  | replaced happlied hmatch hold hnew hr =>
    exact .replaced happlied hmatch hold (by omega) (hrecord.trans hr)
  | kept hreply hr => exact .kept hreply (hrecord.trans hr)

theorem writeOne_lands (op : Storage.WriteOperation)
    (h : s.nextRevision + applied (s.write [op]).1 < 2 ^ 64) :
    Lands s op (s.writeOne op).2 (s.writeOne op).1 := by
  by_cases hm : matchesPrecondition op.precondition (s.records op.address) = true
  · rw [write_cons, writeOne_of_match hm] at h
    rw [writeOne_of_match hm]
    have hnew : s.newRevision = s.nextRevision + 1 := Nat.mod_eq_of_lt h
    refine .replaced rfl hm (m := s.newRevision) ?_ (Nat.le_refl _) (update_self _ _ _)
    omega
  · rw [writeOne_of_mismatch hm]
    exact .kept (by simp) rfl

theorem write_lands (hone : Once (fun o => o = w) (fun o => o.address ≠ w.address) ops)
    (h : s.nextRevision + applied (s.write ops).1 < 2 ^ 64) :
    ∃ reply, Lands s w (s.write ops).2 reply ∧
      (ops.zip (s.write ops).1).find? (fun p => decide (p.1.address = w.address)) =
        some (w, reply) := by
  induction hone generalizing s with
  | @here op ops hop hrest =>
    subst hop
    obtain ⟨-, hcount⟩ := writeOne_counter h
    have hlater := @write_counter (s.writeOne op).2 ops (by omega)
    have hsingle : applied (s.write [op]).1 ≤ applied (s.write (op :: ops)).1 := by
      simp only [applied, write, countP_cons, countP_nil]
      omega
    have hlands : Lands s op ((s.writeOne op).2.write ops).2 (s.writeOne op).1 :=
      (writeOne_lands op (by omega)).later (by omega) (write_apart hrest)
    exact ⟨(s.writeOne op).1, hlands, by
      rw [write_cons, zip_cons_cons, find?_cons_of_pos (by simp)]⟩
  | @there op ops hop _ ih =>
    obtain ⟨hle, hcount⟩ := writeOne_counter h
    obtain ⟨reply, hlands, hfind⟩ := @ih (s.writeOne op).2 (by omega)
    have hsame : (s.writeOne op).2.records w.address = s.records w.address := writeOne_apart hop
    refine ⟨reply, ?_, ?_⟩
    · rw [write_cons]
      cases hlands with
      | replaced happlied hmatch hold hnew hrecord =>
        exact .replaced happlied (hsame ▸ hmatch) (by omega) hnew hrecord
      | kept hreply hrecord => exact .kept hreply (hrecord.trans hsame)
    · rw [write_cons, zip_cons_cons, find?_cons_of_neg (by simpa using hop)]
      exact hfind

/-! ## Deletes and reads -/

theorem delete_counter (addresses : List Address) :
    (s.delete addresses).2.nextRevision = s.nextRevision := by
  induction addresses generalizing s with
  | nil => rfl
  | cons address addresses ih => exact ih

theorem delete_record (addresses : List Address) (a : Address) :
    (s.delete addresses).2.records a = if a ∈ addresses then none else s.records a := by
  induction addresses generalizing s with
  | nil => rfl
  | cons address addresses ih =>
    refine ih.trans ?_
    by_cases ha : a = address
    · subst ha
      simp
    · simp [ha]

inductive Shows (s : Store) (a : Address) : Storage.ReadResult → Prop where
  | absent (h : s.records a = none) : Shows s a ⟨.notFound, .empty, [], none⟩
  | present {record : Record} (h : s.records a = some record) :
      Shows s a ⟨.found, record.document, record.revision, none⟩
  | refused (err : GoError) : Shows s a ⟨.failed, .empty, [], some err⟩

theorem readOne_shows (op : ReadOperation) (st : ReserveState) :
    Shows s op.address (s.readOne op st).1 := by
  unfold readOne
  cases h : s.records op.address with
  | none => exact .absent h
  | some record =>
    dsimp only
    split
    · exact .refused _
    · exact .present h

theorem read_shows {ops : List ReadOperation} {st : ReserveState}
    {p : ReadOperation × Storage.ReadResult} (hp : p ∈ ops.zip (s.read ops st).1) :
    Shows s p.1.address p.2 := by
  induction ops generalizing st with
  | nil => cases hp
  | cons op ops ih =>
    rcases mem_cons.mp hp with rfl | hp
    · exact readOne_shows op st
    · exact ih hp

end Store

end Memory

end Sink
