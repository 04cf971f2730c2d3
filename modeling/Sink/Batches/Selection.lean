import Sink.Wire

/-!
# Selecting a batch

`selectReady` of `batcher.go`: one pass over the waiting calls picks those of
the next batch. A call waits if one of its records is in use or belongs to an
earlier call that waits, if it does not fit beside the calls selected so far,
or if it belongs to another partition.

The pass builds the remainder lazily: until a call is selected, nothing is
copied. `Marking` is what it amounts to: every call gets a mark, the marked
ones are selected and the others remain.
-/

namespace Sink

open List

structure BatchPartition where
  resource : GoString
  mode : CompletionMode
  isolated : Bool
deriving Repr, DecidableEq

/-- A call that waits in a batcher. -/
structure BatchCall (Request : Type) where
  request : Request
  operationCount : Nat
  encodedBytes : Nat
  records : List Address
  partition : BatchPartition

/-- Why a batch is not larger. -/
inductive BatchReason where
  | maxWait
  | maxOperations
  | maxBytes
deriving Repr, DecidableEq

structure RequestBatcher where
  maxOperations : Int
  maxBytes : Int
deriving Repr, DecidableEq

/-- The variables of the pass. -/
structure Selection (Request : Type) where
  selected : List (BatchCall Request)
  remaining : List (BatchCall Request)
  blocked : Address → Bool
  operations : Int
  bytes : Int
  reason : BatchReason

namespace RequestBatcher

variable {Request : Type} (b : RequestBatcher) (active : Address → Nat)

variable (st : Selection Request) (call : BatchCall Request)

/-- A record of the call is in use or belongs to an earlier call that waits. -/
def dependent : Bool :=
  call.records.any fun key => decide (0 < active key) || st.blocked key

/-- The call fits beside the selected ones; the first one always does. -/
def fits : Bool :=
  st.selected.isEmpty || (decide (call.operationCount ≤ b.maxOperations - st.operations) &&
    decide (call.encodedBytes ≤ b.maxBytes - st.bytes))

def compatible : Bool :=
  match st.selected with
  | [] => true
  | first :: _ => !call.partition.isolated && !first.partition.isolated &&
      call.partition == first.partition

/-- One turn of the pass; `before` are the calls already seen. -/
def consider (before : List (BatchCall Request)) (st : Selection Request)
    (call : BatchCall Request) : Selection Request :=
  let dependent := dependent active st call
  let fits := b.fits st call
  if dependent || !fits || !compatible st call then
    { st with
      remaining := if st.selected.isEmpty then st.remaining else st.remaining ++ [call]
      blocked := fun key => st.blocked key || (decide (key ∈ call.records) && active key == 0)
      reason :=
        if !fits && !dependent then
          if b.maxOperations - st.operations < call.operationCount then .maxOperations
          else .maxBytes
        else st.reason }
  else
    { st with
      remaining := if st.selected.isEmpty then st.remaining ++ before else st.remaining
      selected := st.selected ++ [call]
      operations := st.operations + call.operationCount
      bytes := st.bytes + call.encodedBytes }

def pass : List (BatchCall Request) → List (BatchCall Request) → Selection Request →
    Selection Request
  | _, [], st => st
  | before, call :: calls, st => pass (before ++ [call]) calls (b.consider active before st call)

/-- The selected calls, the remaining ones, and why there are not more. -/
def selectReady (pending : List (BatchCall Request)) :
    List (BatchCall Request) × List (BatchCall Request) × BatchReason :=
  let st := b.pass active [] pending ⟨[], [], fun _ => false, 0, 0, .maxWait⟩
  if st.selected.isEmpty then (st.selected, pending, st.reason)
  else
    let reason :=
      if b.maxOperations ≤ st.operations then .maxOperations
      else if b.maxBytes ≤ st.bytes then .maxBytes
      else st.reason
    (st.selected, st.remaining, reason)

end RequestBatcher

/-! ## What the pass amounts to -/

section

variable {Request : Type}

/-- The call has a record in use, or shares one with an earlier call that is
stuck. -/
inductive Stuck (active : Address → Nat) :
    List (BatchCall Request) → BatchCall Request → Prop where
  | active {before call key : _}
      (hkey : key ∈ call.records) (huse : 0 < active key) : Stuck active before call
  | behind {before after earlier call key : _} (hearlier : Stuck active before earlier)
      (hkey : key ∈ earlier.records) (hshared : key ∈ call.records) :
      Stuck active (before ++ earlier :: after) call

abbrev Marking (Request : Type) := List (BatchCall Request × Bool)

namespace Marking

variable (m : Marking Request)

def calls : List (BatchCall Request) := m.map (·.1)

def selected : List (BatchCall Request) := (m.filter (·.2)).map (·.1)

def remaining : List (BatchCall Request) := (m.filter (!·.2)).map (·.1)

theorem calls_snoc (call : BatchCall Request) (mark : Bool) :
    calls (m ++ [(call, mark)]) = calls m ++ [call] := by
  simp [calls]

theorem selected_snoc (call : BatchCall Request) (mark : Bool) :
    selected (m ++ [(call, mark)]) = selected m ++ if mark then [call] else [] := by
  cases mark <;> simp [selected]

theorem remaining_snoc (call : BatchCall Request) (mark : Bool) :
    remaining (m ++ [(call, mark)]) = remaining m ++ if mark then [] else [call] := by
  cases mark <;> simp [remaining]

theorem remaining_of_selected_nil {m : Marking Request} (h : selected m = []) :
    remaining m = calls m := by
  unfold selected at h
  unfold remaining calls
  rw [map_eq_nil_iff, filter_eq_nil_iff] at h
  rw [filter_eq_self.mpr]
  intro p hp
  simpa using h p hp

end Marking

/-- No marked call has a record that is in use or belongs to an earlier call
without a mark. -/
structure Marking.Closed (active : Address → Nat) (m : Marking Request) : Prop where
  idle : ∀ p ∈ m, p.2 = true → ∀ key ∈ p.1.records, active key = 0
  ordered : m.Pairwise fun earlier later => earlier.2 = false → later.2 = true →
    ∀ key ∈ later.1.records, key ∉ earlier.1.records

/-- The calls fit into one batch of one partition. -/
structure Batched (b : RequestBatcher) (calls : List (BatchCall Request)) : Prop where
  operations : ((calls.map (·.operationCount)).sum : Int) ≤ b.maxOperations
  bytes : ((calls.map (·.encodedBytes)).sum : Int) ≤ b.maxBytes
  shared : ∀ call ∈ calls, call.partition.isolated = false
  partition : ∀ call ∈ calls, ∀ other ∈ calls, call.partition = other.partition

/-- The variables after the calls of a marking. -/
structure Passed (b : RequestBatcher) (active : Address → Nat) (m : Marking Request)
    (st : Selection Request) : Prop where
  selected : st.selected = m.selected
  remaining : st.remaining = if m.selected.isEmpty then [] else m.remaining
  operations : st.operations = ((m.selected.map (·.operationCount)).sum : Int)
  bytes : st.bytes = ((m.selected.map (·.encodedBytes)).sum : Int)
  batched : 1 < m.selected.length → Batched b m.selected
  closed : m.Closed active
  blocks : ∀ p ∈ m, p.2 = false → ∀ key ∈ p.1.records, active key = 0 → st.blocked key = true
  stuck : m.selected = [] → ∀ before call after, m.calls = before ++ call :: after →
    Stuck active before call
  blocked : ∀ key, st.blocked key = true → ∃ p ∈ m, key ∈ p.1.records

theorem snoc_eq_append_cons {α : Type} {l before after : List α} {a c : α}
    (h : l ++ [a] = before ++ c :: after) :
    (before = l ∧ c = a) ∨ ∃ rest, l = before ++ c :: rest := by
  rcases eq_nil_or_concat after with rfl | ⟨rest, last, rfl⟩
  · obtain ⟨hl, ha⟩ := append_inj' h rfl
    exact .inl ⟨hl.symm, (cons.inj ha).1.symm⟩
  · rw [concat_eq_append, ← cons_append, ← append_assoc] at h
    exact .inr ⟨rest, (append_inj' h rfl).1⟩

variable {b : RequestBatcher} {active : Address → Nat} {m : Marking Request}
  {st : Selection Request} {call : BatchCall Request}

namespace Passed

theorem start :
    Passed b active ([] : Marking Request) ⟨[], [], fun _ => false, 0, 0, .maxWait⟩ where
  selected := rfl
  remaining := rfl
  operations := rfl
  bytes := rfl
  batched := by simp [Marking.selected]
  closed := ⟨by simp, Pairwise.nil⟩
  blocks := by simp
  stuck := by simp [Marking.calls]
  blocked := by simp

section

variable (h : Passed b active m st)

include h

theorem selected_isEmpty : st.selected.isEmpty = m.selected.isEmpty := by
  rw [h.selected]

theorem wait (hwait : (RequestBatcher.dependent active st call || !b.fits st call ||
      !RequestBatcher.compatible st call) = true) :
    Passed b active (m ++ [(call, false)]) (b.consider active m.calls st call) := by
  unfold RequestBatcher.consider
  rw [if_pos hwait]
  have hselected : Marking.selected (m ++ [(call, false)]) = m.selected := by
    rw [Marking.selected_snoc]
    simp
  refine ⟨?_, ?_, ?_, ?_, ?_, ⟨?_, ?_⟩, ?_, ?_, ?_⟩
  · rw [hselected]
    exact h.selected
  · rw [hselected, Marking.remaining_snoc, h.selected_isEmpty, h.remaining]
    split <;> simp
  · rw [hselected]
    exact h.operations
  · rw [hselected]
    exact h.bytes
  · rw [hselected]
    exact h.batched
  · intro p hp hmark
    rcases mem_append.mp hp with hp | hp
    · exact h.closed.idle p hp hmark
    · rw [mem_singleton.mp hp] at hmark
      cases hmark
  · refine pairwise_append.mpr ⟨h.closed.ordered, pairwise_singleton _ _, ?_⟩
    intro earlier _ later hlater _ hmark
    rw [mem_singleton.mp hlater] at hmark
    cases hmark
  · intro p hp hmark key hkey hidle
    simp only [Bool.or_eq_true, Bool.and_eq_true, decide_eq_true_eq, beq_iff_eq]
    rcases mem_append.mp hp with hp | hp
    · exact .inl (h.blocks p hp hmark key hkey hidle)
    · rw [mem_singleton.mp hp] at hkey
      exact .inr ⟨hkey, hidle⟩
  · intro hnone before c after hsplit
    rw [hselected] at hnone
    rw [Marking.calls_snoc] at hsplit
    rcases snoc_eq_append_cons hsplit with ⟨rfl, rfl⟩ | ⟨rest, hrest⟩
    · -- nothing is selected, so that the call waits for a record
      have hfirst : st.selected = [] := h.selected.trans hnone
      simp only [RequestBatcher.fits, RequestBatcher.compatible, hfirst, isEmpty_nil,
        Bool.true_or, Bool.not_true, Bool.or_false, RequestBatcher.dependent,
        any_eq_true, Bool.or_eq_true, decide_eq_true_eq] at hwait
      obtain ⟨key, hkey, huse | hblocked⟩ := hwait
      · exact .active hkey huse
      obtain ⟨p, hp, hshared⟩ := h.blocked key hblocked
      have hmem : p.1 ∈ m.calls := mem_map_of_mem hp
      obtain ⟨before, after, heq⟩ := append_of_mem hmem
      rw [heq]
      exact .behind (h.stuck hnone _ _ _ heq) hshared hkey
    · exact h.stuck hnone before c rest hrest
  · intro key hkey
    simp only [Bool.or_eq_true, Bool.and_eq_true, decide_eq_true_eq] at hkey
    rcases hkey with hkey | ⟨hkey, -⟩
    · obtain ⟨p, hp, hp'⟩ := h.blocked key hkey
      exact ⟨p, mem_append_left _ hp, hp'⟩
    · exact ⟨(call, false), mem_append_right _ mem_cons_self, hkey⟩

theorem partition_eq {first rest}
    (hfirst : m.selected = first :: rest) : ∀ c ∈ m.selected, c.partition = first.partition := by
  intro c hc
  rw [hfirst] at hc
  cases rest with
  | nil => rw [mem_singleton.mp hc]
  | cons second rest =>
    have hbatched := h.batched (by simp [hfirst])
    rw [hfirst] at hbatched
    exact hbatched.partition c hc first mem_cons_self

theorem batched_snoc (hfits : b.fits st call = true)
    (hcompatible : RequestBatcher.compatible st call = true)
    (hmore : 1 < (m.selected ++ [call]).length) : Batched b (m.selected ++ [call]) := by
  cases hselected : m.selected with
  | nil => simp [hselected] at hmore
  | cons first rest =>
    have hst : st.selected = first :: rest := h.selected.trans hselected
    have hpartition := h.partition_eq hselected
    have hoperations := h.operations
    have hbytes := h.bytes
    simp only [RequestBatcher.fits, hst, isEmpty_cons, Bool.false_or, Bool.and_eq_true,
      decide_eq_true_eq] at hfits
    simp only [RequestBatcher.compatible, hst, Bool.and_eq_true, Bool.not_eq_true',
      beq_iff_eq] at hcompatible
    obtain ⟨⟨hcall, hshared⟩, hsame⟩ := hcompatible
    rw [← hselected]
    have hall : ∀ c ∈ m.selected ++ [call], c.partition = first.partition := by
      intro c hc
      rcases mem_append.mp hc with hc | hc
      · exact hpartition c hc
      · rw [mem_singleton.mp hc, hsame]
    refine ⟨?_, ?_, ?_, ?_⟩
    · rw [map_append, sum_append]
      simp only [map_cons, map_nil, sum_cons, sum_nil]
      omega
    · rw [map_append, sum_append]
      simp only [map_cons, map_nil, sum_cons, sum_nil]
      omega
    · intro c hc
      rw [hall c hc, hshared]
    · intro c hc other hother
      rw [hall c hc, hall other hother]

theorem take (hdependent : RequestBatcher.dependent active st call = false)
    (hfits : b.fits st call = true) (hcompatible : RequestBatcher.compatible st call = true) :
    Passed b active (m ++ [(call, true)]) (b.consider active m.calls st call) := by
  unfold RequestBatcher.consider
  rw [if_neg (by simp [hdependent, hfits, hcompatible])]
  have hselected : Marking.selected (m ++ [(call, true)]) = m.selected ++ [call] :=
    Marking.selected_snoc m call true
  have hfree : ∀ key ∈ call.records, active key = 0 ∧ st.blocked key = false := by
    intro key hkey
    have hnot := any_eq_false.mp hdependent key hkey
    simp only [Bool.or_eq_true, decide_eq_true_eq, not_or, Bool.not_eq_true] at hnot
    exact ⟨by omega, hnot.2⟩
  refine ⟨?_, ?_, ?_, ?_, ?_, ⟨?_, ?_⟩, ?_, ?_, ?_⟩
  · rw [hselected, ← h.selected]
  · have hsome : (m.selected ++ [call]).isEmpty = false := by simp
    rw [hselected, hsome, Marking.remaining_snoc, h.selected_isEmpty, h.remaining]
    simp only [Bool.false_eq_true, if_false, if_true, append_nil]
    split
    · rename_i hnone
      rw [Marking.remaining_of_selected_nil (isEmpty_iff.mp hnone)]
      rfl
    · rfl
  · rw [hselected, h.operations, map_append, sum_append]
    simp
  · rw [hselected, h.bytes, map_append, sum_append]
    simp
  · rw [hselected]
    exact h.batched_snoc hfits hcompatible
  · intro p hp hmark key hkey
    rcases mem_append.mp hp with hp | hp
    · exact h.closed.idle p hp hmark key hkey
    · rw [mem_singleton.mp hp] at hkey
      exact (hfree key hkey).1
  · refine pairwise_append.mpr ⟨h.closed.ordered, pairwise_singleton _ _, ?_⟩
    intro earlier hearlier later hlater hleft _ key hkey hshared
    rw [mem_singleton.mp hlater] at hkey
    obtain ⟨hidle, hunblocked⟩ := hfree key hkey
    rw [h.blocks earlier hearlier hleft key hshared hidle] at hunblocked
    cases hunblocked
  · intro p hp hmark
    rcases mem_append.mp hp with hp | hp
    · exact h.blocks p hp hmark
    · rw [mem_singleton.mp hp] at hmark
      cases hmark
  · intro hnone
    rw [hselected] at hnone
    simp at hnone
  · intro key hkey
    obtain ⟨p, hp, hp'⟩ := h.blocked key hkey
    exact ⟨p, mem_append_left _ hp, hp'⟩

theorem consider (call : BatchCall Request) :
    ∃ mark, Passed b active (m ++ [(call, mark)]) (b.consider active m.calls st call) := by
  cases hdependent : RequestBatcher.dependent active st call with
  | true => exact ⟨false, h.wait (by simp [hdependent])⟩
  | false =>
    cases hfits : b.fits st call with
    | false => exact ⟨false, h.wait (by simp [hfits])⟩
    | true =>
      cases hcompatible : RequestBatcher.compatible st call with
      | false => exact ⟨false, h.wait (by simp [hcompatible])⟩
      | true => exact ⟨true, h.take hdependent hfits hcompatible⟩

theorem pass (calls : List (BatchCall Request)) :
    ∃ rest : Marking Request, rest.calls = calls ∧
      Passed b active (m ++ rest) (b.pass active m.calls calls st) := by
  induction calls generalizing m st with
  | nil => exact ⟨[], rfl, by rw [append_nil]; exact h⟩
  | cons call calls ih =>
    obtain ⟨mark, hnext⟩ := h.consider call
    obtain ⟨rest, hrest, hpassed⟩ := ih hnext
    refine ⟨(call, mark) :: rest, congrArg (call :: ·) hrest, ?_⟩
    rw [Marking.calls_snoc, append_assoc] at hpassed
    exact hpassed

end

end Passed

/-- The selected and the remaining calls are the waiting calls with and without
a mark, in order. More than one call is selected only if they fit together, a
selected call has no record that is in use or belongs to an earlier call that
remains, and nothing is selected only if every call is stuck. -/
theorem selectReady_closed (b : RequestBatcher) (active : Address → Nat)
    (pending : List (BatchCall Request)) :
    let r := b.selectReady active pending
    ∃ m : Marking Request, m.calls = pending ∧ r.1 = m.selected ∧ r.2.1 = m.remaining ∧
      (1 < r.1.length → Batched b r.1) ∧ m.Closed active ∧
      (r.1 = [] → ∀ before call after, pending = before ++ call :: after →
        Stuck active before call) := by
  have hstart : Passed b active ([] : Marking Request) _ := Passed.start
  obtain ⟨m, hcalls, hpassed⟩ := hstart.pass pending
  have hpassed : Passed b active m (b.pass active [] pending _) := hpassed
  unfold RequestBatcher.selectReady
  dsimp only
  split
  · rename_i hnone
    have hnone : m.selected = [] := hpassed.selected ▸ isEmpty_iff.mp hnone
    refine ⟨m, hcalls, hpassed.selected, ?_, ?_, hpassed.closed, ?_⟩
    · exact hcalls.symm.trans (Marking.remaining_of_selected_nil hnone).symm
    · rw [hpassed.selected]
      exact hpassed.batched
    · rw [← hcalls]
      exact fun _ => hpassed.stuck hnone
  · rename_i hsome
    rw [hpassed.selected] at hsome
    refine ⟨m, hcalls, hpassed.selected, ?_, ?_, hpassed.closed, ?_⟩
    · have hremaining := hpassed.remaining
      rw [if_neg hsome] at hremaining
      exact hremaining
    · rw [hpassed.selected]
      exact hpassed.batched
    · intro hnone
      rw [hpassed.selected] at hnone
      exact absurd (isEmpty_iff.mpr hnone) hsome

end

end Sink
