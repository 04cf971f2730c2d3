import Sink.Search.Attempt

/-!
# A Replace never creates a record

From one attempt to the whole of `Write`. While a Replace is pending, every
action sent for it was refused and its result is untouched (`Waiting`); once it
is settled, nothing that is sent later is about it. `write_replaces` says what
this means for the results of a request, for every backend and whatever the
other writers do; in particular a write ends.
-/

namespace Sink.SearchStore

open Interact List Option

variable {s : Store}
variable {result : Storage.WriteResult}

/-! ## Results -/

variable {item : BulkItem}

theorem applyWriteItem_applied :
    (applyWriteItem result item).status = .applied ↔ item.Succeeds := by
  unfold applyWriteItem BulkItem.Succeeds
  split
  · rename_i hconflict
    refine ⟨(fun hno => nomatch hno), fun ⟨hsuccess, _⟩ => ?_⟩
    rw [hconflict.1] at hsuccess
    cases hsuccess
  · split
    · rename_i hfails
      constructor
      · intro hno
        split at hno <;> cases hno
      · intro ⟨hsuccess, hnone, _⟩
        rw [hsuccess, hnone] at hfails
        simp at hfails
    · rename_i hsucceeds
      rw [not_or] at hsucceeds
      have hstatus : succeeded item.status = true := by simpa using hsucceeds.1
      have hnone : item.error = none := by simpa using hsucceeds.2
      split
      · rename_i sequence primaryTerm hsequence hterm
        split
        · rename_i err herr
          refine ⟨(fun hno => nomatch hno), fun ⟨_, _, sequence', term', h₁, h₂, hpos⟩ => ?_⟩
          cases hsequence.symm.trans h₁
          cases hterm.symm.trans h₂
          cases herr.symm.trans (encodeRevision_ok.mpr ⟨hpos.1, hpos.2, rfl⟩)
        · rename_i revision hrevision
          obtain ⟨hfirst, hsecond, -⟩ := encodeRevision_ok.mp hrevision
          refine ⟨fun _ => ?_, fun _ => rfl⟩
          exact ⟨hstatus, hnone, sequence, primaryTerm, hsequence, hterm, hfirst, hsecond⟩
      · rename_i hmissing
        exact ⟨(fun hno => nomatch hno), fun ⟨_, _, number, term, h₁, h₂, _⟩ =>
          absurd h₂ (hmissing number term h₁)⟩

theorem applyWriteItem_preconditionFailed
    (h : (applyWriteItem result item).status = .preconditionFailed) : item.status = 409 := by
  unfold applyWriteItem at h
  split at h
  · rename_i hconflict
    exact hconflict.1
  split at h
  · split at h <;> cases h
  split at h
  · split at h <;> cases h
  · cases h

/-! ## A wave -/

def Prepared (work : WriteWork) : Prop :=
  work.existsOnly = true ↔ work.precondition = .recordExists

/-- The write has been sent `n` times and lost the race each time. -/
structure Waiting (n : Nat) (work : WriteWork) (log : List Entry) (results : Results) : Prop where
  prepared : Prepared work
  untouched : results work.resultIndex = zeroResult
  count : (sends work.resultIndex log).length = n
  lost : ∀ d ∈ sends work.resultIndex log,
    d.LostRace ∧ d.outcome.applied = false ∧ d.CreatesNothing
  /-- Only a Replace is sent again. -/
  again : 0 < n → work.existsOnly = true

/-- What is known of a write that is not pending any more. -/
def Settled (work : WriteWork) (log : List Entry) (result : Storage.WriteResult) : Prop :=
  if work.existsOnly then
    Replaced (FoundAbsent work.document log) work.resultIndex log result
  else (sends work.resultIndex log).length ≤ 1

variable {log log' : List Entry}

theorem Replaced.mono {absent absent' : Prop} {index : Nat} (h : Replaced absent index log result)
    (hsends : sends index log' = sends index log) (habsent : absent → absent') :
    Replaced absent' index log' result where
  createsNothing := hsends ▸ h.createsNothing
  applied := hsends ▸ h.applied
  preconditionFailed hfailed := habsent (h.preconditionFailed hfailed)
  attempts := hsends ▸ h.attempts
  conflict := hsends ▸ h.conflict

/-- What happens later to others changes nothing. -/
theorem Settled.mono {work work' : WriteWork} (h : Settled work log result)
    (hindex : work'.resultIndex = work.resultIndex) (hdocument : work'.document = work.document)
    (hexists : work'.existsOnly = work.existsOnly)
    (hsends : sends work.resultIndex log' = sends work.resultIndex log) (hlog : log <:+ log') :
    Settled work' log' result := by
  unfold Settled at h ⊢
  rw [hexists, hindex, hdocument]
  split
  · rename_i hexists
    rw [if_pos hexists] at h
    exact h.mono hsends fun habsent => habsent.mono hlog
  · rename_i hexists
    rw [if_neg hexists] at h
    rw [hsends]
    exact h

namespace Waiting

variable {n : Nat} {work : WriteWork} {w w' : Backend} {results : Results}
  {result' : Storage.WriteResult} {again : Prop}

section

variable (h : Waiting n work w.log results)

include h

theorem none_applied :
    ¬ ∃ d ∈ sends work.resultIndex w.log, d.outcome.applied = true ∧ d.answer.isSome = true := by
  intro ⟨d, hd, happlied, _⟩
  rw [(h.lost d hd).2.1] at happlied
  cases happlied

theorem replaced_unsent (hn : n < maxExistingWriteAttempts) {absent : Prop}
    (hsends : sends work.resultIndex w'.log = sends work.resultIndex w.log)
    (happlied : result'.status ≠ .applied)
    (hfailed : result'.status = .preconditionFailed → absent) :
    Replaced absent work.resultIndex w'.log result' where
  createsNothing := hsends ▸ fun d hd => (h.lost d hd).2.2
  applied := by
    rw [hsends]
    exact ⟨fun hno => absurd hno happlied, fun hno => absurd hno h.none_applied⟩
  preconditionFailed := hfailed
  attempts := by
    rw [hsends, h.count]
    omega
  conflict hlength := by
    rw [hsends, h.count] at hlength
    omega

/-- A Replace that was sent once more, and lost no race this time. -/
theorem replaced_sent (hn : n < maxExistingWriteAttempts) {absent : Prop} {d : Delivery}
    (hsends : sends work.resultIndex w'.log = d :: sends work.resultIndex w.log)
    (hcreates : d.CreatesNothing) (hlost : ¬ d.LostRace)
    (happlied : result'.status = .applied ↔ d.outcome.applied = true ∧ d.answer.isSome = true)
    (hfailed : result'.status ≠ .preconditionFailed) :
    Replaced absent work.resultIndex w'.log result' where
  createsNothing := by
    rw [hsends]
    exact forall_mem_cons.mpr ⟨hcreates, fun d hd => (h.lost d hd).2.2⟩
  applied := by
    rw [hsends, exists_mem_cons_iff, happlied]
    exact ⟨.inl, fun hor => hor.resolve_right h.none_applied⟩
  preconditionFailed hno := absurd hno hfailed
  attempts := by
    rw [hsends, length_cons, h.count]
    omega
  conflict _ hall := by
    rw [hsends] at hall
    exact absurd (hall d mem_cons_self) hlost

theorem settled (hn : n < maxExistingWriteAttempts)
    (hend : AttemptEnd work w w' (results work.resultIndex) result' again) (hagain : ¬ again) :
    Settled work w'.log result' := by
  unfold Settled
  split
  · rename_i hexists
    have hkind : work.precondition = .recordExists := h.prepared.mp hexists
    cases hend with
    | unsent hsends hresult _ =>
      rcases hresult with ⟨err, rfl⟩ | ⟨rfl, habsent⟩
      · exact h.replaced_unsent hn hsends (fun hno => nomatch hno) fun hno => nomatch hno
      · exact h.replaced_unsent hn hsends (fun hno => nomatch hno) fun _ => habsent hkind
    | sent d hsends hlawful hconditional hends =>
      have hcreates := hlawful.createsNothing (hconditional hkind)
      unfold Delivery.Ends at hends
      cases hanswer : d.answer with
      | none =>
        rw [hanswer] at hends
        obtain ⟨⟨err, rfl⟩, -⟩ := hends
        refine h.replaced_sent hn hsends hcreates ?_ ?_ fun hno => nomatch hno
        · intro ⟨item, hitem, _⟩
          cases hanswer.symm.trans hitem
        · rw [hanswer]
          exact ⟨(fun hno => nomatch hno), fun hno => nomatch hno.2⟩
      | some item =>
        rw [hanswer] at hends
        dsimp only at hends
        by_cases hconflict : item.status = 409
        · rw [if_pos ⟨hconflict, hexists⟩] at hends
          exact absurd hends.2 hagain
        rw [if_neg fun hno => hconflict hno.1] at hends
        obtain ⟨rfl, -⟩ := hends
        refine h.replaced_sent hn hsends hcreates ?_ ?_ fun hno =>
          hconflict (applyWriteItem_preconditionFailed hno)
        · intro ⟨item', hitem, hstatus⟩
          cases hanswer.symm.trans hitem
          exact hconflict hstatus
        · rw [applyWriteItem_applied, ← hlawful.reported item hanswer, hanswer]
          exact ⟨fun happlied => ⟨happlied, rfl⟩, And.left⟩
  · rename_i hexists
    have hzero : (sends work.resultIndex w.log).length = 0 := by
      rw [h.count]
      exact Nat.eq_zero_of_not_pos fun hpos => hexists (h.again hpos)
    cases hend with
    | unsent hsends _ _ =>
      have hlength := congrArg length hsends
      omega
    | sent d hsends _ _ _ =>
      have hlength := congrArg length hsends
      rw [length_cons, hzero] at hlength
      omega

/-- What an attempt leaves pending has lost one more race. -/
theorem next {results' : Results}
    (hend : AttemptEnd work w w' (results work.resultIndex) (results' work.resultIndex) again)
    (hagain : again) {work' : WriteWork} (hindex : work.resultIndex = work'.resultIndex)
    (hexists : work'.existsOnly = true) (hkind : work'.precondition = .recordExists)
    (hsame : work.existsOnly = true) : Waiting (n + 1) work' w'.log results' := by
  cases hend with
  | unsent _ _ hno => exact absurd hagain hno
  | sent d hsends hlawful hconditional hends =>
    unfold Delivery.Ends at hends
    cases hanswer : d.answer with
    | none =>
      rw [hanswer] at hends
      exact absurd hagain hends.2
    | some item =>
      rw [hanswer] at hends
      dsimp only at hends
      split at hends
      · rename_i hconflict
        have hlost : d.LostRace := ⟨item, hanswer, hconflict.1⟩
        refine ⟨⟨fun _ => hkind, fun _ => hexists⟩, ?_, ?_, ?_, fun _ => hexists⟩
        · rw [← hindex, hends.1, h.untouched]
        · rw [← hindex, hsends, length_cons, h.count]
        · rw [← hindex, hsends]
          exact forall_mem_cons.mpr ⟨⟨hlost, hlawful.not_applied hlost,
            hlawful.createsNothing (hconditional (h.prepared.mp hsame))⟩, h.lost⟩
      · exact absurd hagain hends.2

end

/-- A Replace that lost three races is a conflict. -/
theorem conflict (h : Waiting maxExistingWriteAttempts work w.log results) :
    Settled work w.log (setWriteError (results work.resultIndex) recordChanged) := by
  have hexists := h.again (by decide)
  unfold Settled
  rw [if_pos hexists, h.untouched]
  exact {
    createsNothing := fun d hd => (h.lost d hd).2.2
    applied := ⟨(fun hno => nomatch hno), fun hno => absurd hno h.none_applied⟩
    preconditionFailed := fun hno => nomatch hno
    attempts := Nat.le_of_eq h.count
    conflict := fun _ _ => ⟨rfl, rfl⟩ }

end Waiting

variable {results : Results} {visible : Bool}

namespace Oversized

def store : Store where
  driver := lit "opensearch"
  endpoints := 1
  someEndpoint := Nat.one_pos
  resolve _ := .ok ⟨lit "i", lit "a"⟩
  validateDocument _ := .ok ()
  compact := .ok

def operation : Storage.WriteOperation :=
  ⟨⟨lit "sink://s/i/a"⟩, ⟨.json, lit "\x7b\x7d"⟩, .recordExists⟩

def stored : Stored := ⟨1, 1, lit "\x7b\x7d"⟩

def documents : Documents := fun _ => some stored

def work : WriteWork where
  resultIndex := 0
  routingKey := lit "sink://s/i/a"
  document := ⟨lit "i", lit "a"⟩
  source := lit "\x7b\x7d"
  precondition := .revisionMatches [0, 0, 0, 0, 0, 0, 0, 1, 0, 0, 0, 0, 0, 0, 0, 1]
  existsOnly := true

def line : BulkLine := ⟨lit "index", ⟨⟨lit "i", lit "a"⟩, some 1, some 1⟩, lit "\x7b\x7d"⟩

def found : MultiGetDocument := ⟨lit "i", lit "a", some true, [], some 1, some 1, none⟩

def tooLarge : Failure :=
  ⟨.text (lit "search response exceeds configured byte limit: opensearch maximum is 1024 bytes"),
    true⟩

end Oversized

end Sink.SearchStore
