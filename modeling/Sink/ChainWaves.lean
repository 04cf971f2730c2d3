import Sink.ChainRun

/-!
# A chain through its waves

`executeWriteGroups` may cut a chain: operations are executed separately
through the last one that returns a document, one wave after another, and
the rest is folded. `parts` lists the groups a chain is cut into. Each part
is concluded as a group of its own, on the direct or on the conditional
path, and published once; `Chained` strings the parts together. Later waves
leave the results of earlier parts alone.
-/

namespace Sink

open Interact Interact.Exec List Option

/-! ## The parts of a chain -/

namespace WriteGroup

variable {g : WriteGroup} {op : ParsedWrite}

/-- The groups of the next waves. -/
def partsFrom : Nat → WriteGroup → List WriteGroup
  | 0, _ => []
  | n + 1, g => g.split.1 :: ((g.split.2.map (partsFrom n)).getD [])

/-- The groups a chain is executed as, in order. -/
def parts (g : WriteGroup) : List WriteGroup := g.partsFrom g.operations.length

theorem split_operations (g : WriteGroup) :
    g.operations = g.split.1.operations ++ ((g.split.2.map (·.operations)).getD []) := by
  unfold split
  split
  · simp
  · simp
  · rename_i first second rest h
    split
    · simp [single, h]
    · simp

theorem split_address (g : WriteGroup) :
    g.split.1.address = g.address ∧ ∀ rest, g.split.2 = some rest → rest.address = g.address := by
  unfold split
  split
  · exact ⟨rfl, by simp⟩
  · exact ⟨rfl, by simp⟩
  · rename_i first second rest h
    split
    · refine ⟨g.sameAddress first (by simp [h]), ?_⟩
      rintro _ ⟨⟩
      rfl
    · exact ⟨rfl, by simp⟩

variable {rest : WriteGroup}

theorem split_mem (h : g.split.2 = some rest) (hop : op ∈ rest.operations) : op ∈ g.operations := by
  rw [g.split_operations, h]
  exact mem_append_right _ hop

theorem split_mem_first (hop : op ∈ g.split.1.operations) : op ∈ g.operations := by
  rw [g.split_operations]
  exact mem_append_left _ hop

theorem split_length (h : g.split.2 = some rest) :
    rest.operations.length < g.operations.length := by
  have hlen := congrArg length g.split_operations
  have hpos := length_pos_iff.mpr g.split.1.nonempty
  rw [h] at hlen
  simp only [map_some, getD_some, length_append] at hlen
  omega

theorem partsFrom_eq (n m : Nat) (g : WriteGroup) (hn : g.operations.length ≤ n)
    (hm : g.operations.length ≤ m) : g.partsFrom n = g.partsFrom m := by
  induction n generalizing m g with
  | zero =>
    have := length_pos_iff.mpr g.nonempty
    omega
  | succ n ih =>
    cases m with
    | zero =>
      have := length_pos_iff.mpr g.nonempty
      omega
    | succ m =>
      simp only [partsFrom]
      cases hs : g.split.2 with
      | none => rfl
      | some rest =>
        have hlen := split_length hs
        simp only [map_some, getD_some]
        rw [ih m rest (by omega) (by omega)]

theorem parts_eq (g : WriteGroup) : g.parts = g.split.1 :: ((g.split.2.map parts).getD []) := by
  unfold parts
  obtain ⟨n, hn⟩ : ∃ n, g.operations.length = n + 1 :=
    ⟨_, (Nat.sub_add_cancel (length_pos_iff.mpr g.nonempty)).symm⟩
  rw [hn, partsFrom]
  cases hs : g.split.2 with
  | none => rfl
  | some rest =>
    have hlen := split_length hs
    simp only [map_some, getD_some]
    rw [partsFrom_eq n rest.operations.length rest (by omega) (Nat.le_refl _)]

theorem parts_operations (g : WriteGroup) : g.parts.flatMap (·.operations) = g.operations := by
  rw [g.parts_eq, flatMap_cons, g.split_operations]
  cases hs : g.split.2 with
  | none => simp
  | some rest =>
    simp only [map_some, getD_some]
    rw [parts_operations rest]
termination_by g.operations.length
decreasing_by exact split_length hs

theorem parts_address (g : WriteGroup) : ∀ p ∈ g.parts, p.address = g.address := by
  intro p hp
  rw [g.parts_eq] at hp
  rcases mem_cons.mp hp with rfl | hp
  · exact g.split_address.1
  cases hs : g.split.2 with
  | none => simp [hs] at hp
  | some rest =>
    simp only [hs, map_some, getD_some] at hp
    exact (parts_address rest p hp).trans (g.split_address.2 rest hs)
termination_by g.operations.length
decreasing_by exact split_length hs

theorem parts_mem {p : WriteGroup} (hp : p ∈ g.parts) (hop : op ∈ p.operations) :
    op ∈ g.operations := by
  rw [← g.parts_operations]
  exact mem_flatMap.mpr ⟨p, hp, hop⟩

theorem parts_of_split (h : g.split.2 = some rest) : g.parts = g.split.1 :: rest.parts := by
  rw [g.parts_eq, h]
  rfl

theorem parts_of_single (h : g.split.2 = none) : g.parts = [g.split.1] := by
  rw [g.parts_eq, h]
  rfl

end WriteGroup

/-! ## Concluding one part -/

variable (x : WriteExecution) (g : WriteGroup) (start : History) (r : Results) (es : History)

/-- The part has its final results, and they were published once. -/
def Done : Prop :=
  ∃ es' r', Concluded x g start es' r' ∧ Agree g r r' ∧ es = publication g r' :: es'

/-- What an execution that stopped with an error leaves of a part. -/
def Halted : Prop :=
  Done x g start r es ∨ Unpublished start es

/-- Both exits of a wave. -/
def Ended {α : Type} (x : WriteExecution) (g : WriteGroup) (start : History)
    (r : Fallible α) (s : ExecState) (es : History) : Prop :=
  Ends (fun _ => Done x g start s.results es) (fun _ => Halted x g start s.results es) r

section Direct

variable {x : WriteExecution} {g : WriteGroup} {start : History} {f : Focus}
  {spec : History → Call → Prop}
variable {r : Results} {es : History} {groups : List WriteGroup} {s : ExecState}
  {put : ParsedPut} {ph : Results → History → Prop} {reply : Storage.WriteResult}
  {pairs : List (Candidate × Storage.WriteResult)}

theorem Fresh.cleanOn (h : Fresh g r) : CleanOn g r :=
  fun op hop => by rw [h op hop]; exact ⟨rfl, rfl⟩

theorem done_local : Local g (Done x g start) :=
  fun _ _ _ ha ⟨es', r', hc, hr, he⟩ => ⟨es', r', hc, ha.trans hr, he⟩

theorem Done.concludes {e : ChainEvent} (h : Done x g start r (e :: es)) :
    Concludes x g start r es := by
  obtain ⟨es', r', hc, hr, he⟩ := h
  obtain ⟨-, rfl⟩ := cons.inj he
  exact ⟨r', hc, hr⟩

theorem Concluded.done (h : Concluded x g start es r) : Done x g start r (publication g r :: es) :=
  ⟨es, r, h, .refl g r, rfl⟩

/-- Nothing happened to the part yet. -/
def Waiting (g : WriteGroup) (start : History) (r : Results) (es : History) :
    Prop :=
  Fresh g r ∧ es = start

theorem waiting_local : Local g (Waiting g start) :=
  fun _ _ _ ha ⟨hfresh, he⟩ => ⟨fun op hop => (ha op hop).trans (hfresh op hop), he⟩

theorem Waiting.halted (h : Waiting g start r es) :
    Halted x g start r es := .inr (h.2 ▸ .refl)

/-- What planning the direct groups makes of the focused one. -/
def Planned (x : WriteExecution) (g : WriteGroup) (start : History) (f : Focus)
    (w : Storage.WriteOperation) (planned : List Candidate) (r : Results)
    (es : History) : Prop :=
  (OneCandidate g f w planned ∧ Waiting g start r es) ∨
    ((∀ c ∈ planned, ApartCandidate f c) ∧ Done x g start r es)

theorem Done.refused (hd : g.directPut = true) (h : Waiting g start r es) {err : GoError}
    (herr : err.errorDetails.1 = .resourceExhausted) :
    Done x g start (applyWriteGroupResult g.operations r (.ofError err))
      (publication g (applyWriteGroupResult g.operations r (.ofError err)) :: es) := by
  obtain ⟨hfresh, rfl⟩ := h
  exact (Concluded.refused hd hfresh herr).done

/-- The direct write was answered. -/
def Replied (g : WriteGroup) (start : History) (w : Storage.WriteOperation)
    (reply : Storage.WriteResult) (r : Results) (es : History) : Prop :=
  Fresh g r ∧ es = .wrote w reply :: start

theorem replied_local (w : Storage.WriteOperation) : Local g (Replied g start w reply) :=
  fun _ _ _ ha ⟨hfresh, he⟩ => ⟨fun op hop => (ha op hop).trans (hfresh op hop), he⟩

theorem Replied.unpublished {w : Storage.WriteOperation} (h : Replied g start w reply r es) :
    Unpublished start es := by
  rw [h.2]
  exact Unpublished.refl.cons (by simp)

section Steps

variable (hf : f.Holds g) (hspec : Permits x g start f spec)
include hf hspec

theorem reservePuts_apart (hph : Local g ph) (hgs : f.Avoids groups)
    (h : ph s.results es) :
    wp (observer f.record spec) (fun r s' es' => ph s'.results es' ∧
      Ends (fun planned => ∀ c ∈ planned, ApartCandidate f c) (fun _ => True) r)
      (x.reservePuts groups) s es := by
  refine wp_mono ?_ (wp_skip hf hph hgs
    (holds_frames <| x.reservePuts_holds (unseen_of_apart hspec hgs) groups fun _ h => h) h)
  rintro r s' es' ⟨hph', hr⟩
  exact ⟨hph', hr.mono (fun planned hc c hmem => ⟨hgs c.1 (hc c hmem).1, (hc c hmem).2⟩)
    fun _ h => h⟩

theorem settlePuts_apart (hph : Local g ph) (hpairs : ∀ p ∈ pairs, ApartCandidate f p.1)
    (h : ph s.results es) :
    wp (observer f.record spec) (fun _ s' es' => ph s'.results es') (x.settlePuts pairs) s es := by
  have hgs : f.Avoids (pairs.map (·.1.1)) :=
    forall_mem_map.mpr fun p hp => (hpairs p hp).1
  exact wp_mono (fun _ _ _ h => h.1) (wp_skip hf hph hgs (holds_frames <| x.settlePuts_holds
    (unseen_of_apart hspec hgs) pairs fun p hp => mem_map_of_mem hp) h)

variable (hd : g.directPut = true) (hput : g.lastPut? = some put)
include hd hput

theorem reservePuts_focus (hone : OneGroup g f groups) (h : Waiting g start s.results es) :
    wp (observer f.record spec) (fun r s' es' =>
      Ends (fun planned => Planned x g start f ⟨g.address, put.document, put.precondition⟩
          planned s'.results es')
        (fun _ => Halted x g start s'.results es') r) (x.reservePuts groups) s es := by
  induction hone generalizing s es with
  | @here g' rest hg hrest =>
    subst hg
    unfold WriteExecution.reservePuts
    simp only [hput]
    rw [wp_bind]
    refine wp_quiet hspec (fun hM => holds_frames <| x.reserveReturns_holds hM _ _) ?_
      fun _ s' hs' => by rw [hs']; exact h.halted
    intro err s₁ herr hs₁
    have h₁ : Waiting g' start s₁.results es := by rw [hs₁]; exact h
    cases err with
    | some e =>
      have hdone : Done x g' start _ _ := .refused hd h₁ (herr e rfl)
      refine wp_seq (settle_focus hf hspec _ hdone hdone.concludes (h.2 ▸ .refl)) ?_
        fun _ _ _ => .inr
      intro _ s₂ es₂ hdone
      refine wp_mono ?_ (reservePuts_apart hf hspec done_local hrest hdone)
      rintro (e' | planned) s₃ es₃ ⟨hdone₃, hc⟩
      · exact .inl hdone₃
      · exact .inr ⟨hc, hdone₃⟩
    | none =>
      refine wp_seq (reservePuts_apart hf hspec waiting_local hrest h₁) ?_ ?_
      · rintro planned s₂ es₂ ⟨hwait, hc⟩
        exact .inl ⟨.here rfl hc, hwait⟩
      · rintro e s₂ es₂ ⟨hwait, -⟩
        exact hwait.halted
  | @there g' rest hapart _ ih =>
    have hgs : f.Avoids [g'] := forall_mem_singleton.mpr hapart
    unfold WriteExecution.reservePuts
    split
    · exact ih h
    rw [wp_bind]
    refine wp_quiet hspec (fun hM => holds_frames <| x.reserveReturns_holds hM _ _) ?_
      fun _ s' hs' => by rw [hs']; exact h.halted
    intro err s₁ _ hs₁
    have h₁ : Waiting g start s₁.results es := by rw [hs₁]; exact h
    cases err with
    | some e =>
      refine wp_seq (wp_skip hf waiting_local hgs (holds_frames <| x.settleGroup_holds
        (unseen_of_apart hspec hgs) mem_cons_self _) h₁) ?_ ?_
      · rintro _ s₂ es₂ ⟨hwait, -⟩
        exact ih hwait
      · exact fun _ _ _ h => h.1.halted
    | none =>
      refine wp_seq (ih h₁) ?_ fun _ _ _ h => h
      rintro planned s₂ es₂ (⟨hc, hwait⟩ | ⟨hc, hdone⟩)
      · exact .inl ⟨.there ⟨hapart, rfl⟩ hc, hwait⟩
      · refine .inr ⟨forall_mem_cons.mpr ⟨⟨hapart, rfl⟩, hc⟩, hdone⟩

theorem settlePuts_focus
    (hpairs : Once (fun p => p.1 = (g, ⟨g.address, put.document, put.precondition⟩) ∧ p.2 = reply)
      (fun p => ApartCandidate f p.1) pairs)
    (h : Replied g start ⟨g.address, put.document, put.precondition⟩ reply s.results es) :
    wp (observer f.record spec) (Ended x g start) (x.settlePuts pairs) s es := by
  induction hpairs generalizing s es with
  | @here p rest hp hrest =>
    obtain ⟨⟨g', op⟩, stored⟩ := p
    obtain ⟨hc, rfl⟩ := hp
    obtain ⟨rfl, rfl⟩ := Prod.mk.inj hc
    have hun := h.unpublished
    obtain ⟨hfresh, rfl⟩ := h
    have hconcluded : Concluded x g' start (.wrote _ stored :: start) _ :=
      .written hd hput hfresh
    have hdone := hconcluded.done
    refine wp_seq (settle_focus hf hspec _ hdone hdone.concludes hun) ?_ fun _ _ _ => .inr
    intro _ s' es' hdone
    refine wp_mono ?_ (settlePuts_apart hf hspec done_local hrest hdone)
    rintro (e | _) s'' es'' hdone''
    · exact .inl hdone''
    · exact hdone''
  | @there p rest hp _ ih =>
    obtain ⟨⟨g', op⟩, stored⟩ := p
    have hgs : f.Avoids [g'] := forall_mem_singleton.mpr hp.1
    refine wp_seq (wp_skip hf (replied_local _) hgs (holds_frames <| x.settleStored_holds
      (unseen_of_apart hspec hgs) mem_cons_self stored op.document) h) ?_ ?_
    · rintro _ s' es' ⟨hrep, -⟩
      exact ih hrep
    · exact fun _ _ _ h => .inr h.1.unpublished

/-- `executePuts` concludes every direct group, or stops with an error that
leaves it concluded or unpublished. -/
theorem executePuts_focus (hone : OneGroup g f groups) (hfresh : Fresh g s.results) :
    wp (observer f.record spec) (Ended x g start) (x.executePuts groups) s start := by
  refine wp_seq (reservePuts_focus hf hspec hd hput hone ⟨hfresh, rfl⟩) ?_ fun _ _ _ h => h
  rintro planned s₁ es₁ (⟨hc, hwait⟩ | ⟨hc, hdone⟩)
  · obtain ⟨hfresh₁, rfl⟩ := hwait
    split
    · rename_i hempty
      cases hc <;> simp at hempty
    rw [wp_bind]
    refine wp_ask (.write _ _) (hspec _ _ ?_) fun reply => ?_
    · exact .inr ⟨_, hf.address, .direct hd hput, hc.operations⟩
    · rcases record_write hf.address hc x.waitUntilVisible es₁ reply with
        ⟨results, stored, rfl, hlen, hrec, hzip⟩ | ⟨hbad, hrec⟩
      · rw [hrec]
        dsimp only
        rw [if_neg (by simpa using hlen)]
        exact settlePuts_focus hf hspec hd hput hzip ⟨hfresh₁, rfl⟩
      · rw [hrec]
        have hstop : Halted x g es₁ s₁.results
            (.lost ⟨g.address, put.document, put.precondition⟩ :: es₁) :=
          .inr (Unpublished.refl.cons (by simp))
        cases reply with
        | error e => exact hstop
        | ok results =>
          dsimp only
          rw [if_pos (hbad results rfl)]
          exact hstop
  · have hgs : f.Avoids (planned.map (·.1)) :=
      forall_mem_map.mpr fun c hmem => (hc c hmem).1
    have hcands : WriteExecution.CandidatesOf (planned.map (·.1)) planned :=
      fun c hmem => ⟨mem_map_of_mem hmem, (hc c hmem).2⟩
    have hM := unseen_of_apart hspec hgs
    split
    · exact hdone
    refine wp_seq (wp_skip hf done_local hgs
      (ask_frames hM (WriteExecution.write_within hcands _)) hdone) ?_ fun _ _ _ h => .inl h.1
    rintro reply s₂ es₂ ⟨hdone₂, -⟩
    cases reply with
    | error e => exact .inl hdone₂
    | ok results =>
      dsimp only
      split
      · exact .inl hdone₂
      refine wp_mono ?_ (wp_skip hf done_local hgs (holds_frames <| x.settlePuts_holds hM _
        (WriteExecution.zip_mem_groups hcands results)) hdone₂)
      rintro (e | _) s₃ es₃ ⟨hdone₃, -⟩
      · exact .inl hdone₃
      · exact hdone₃

end Steps

end Direct

/-! ## One wave -/

section Wave

variable {x : WriteExecution} {g : WriteGroup} {start : History} {f : Focus}
  {spec : History → Call → Prop}

theorem Settled.done {r : Results} {es : History} (h : Settled x g start r es) :
    Done x g start r es := by
  obtain ⟨es', r', hset, hr, he⟩ := h
  exact ⟨es', r', .conditional hset, hr, he⟩

theorem executeWriteWave_focus (hf : f.Holds g) (hspec : Permits x g start f spec) (fuel : Nat)
    {groups : List WriteGroup} (hone : OneGroup g f groups) {s : ExecState}
    (hfresh : Fresh g s.results) :
    wp (observer f.record spec) (Ended x g start) (x.executeWriteWave fuel groups) s start := by
  cases hd : g.directPut with
  | true =>
    obtain ⟨put, hput⟩ := g.lastPut_of_directPut hd
    have hputs : OneGroup g f (groups.filter (·.directPut)) :=
      hone.filter_of_pos (by rintro _ rfl; exact hd)
    have hrest : f.Avoids (groups.filter (fun g => !g.directPut)) :=
      hone.filter_of_neg (by rintro _ rfl; simp [hd])
    refine wp_seq (executePuts_focus hf hspec hd hput hputs hfresh) ?_ fun _ _ _ h => h
    intro _ s₁ es₁ hdone
    refine wp_mono ?_ (wp_skip hf done_local hrest (x.executeConditionalWrites_frames
      (unseen_of_apart hspec hrest) trivial fuel fun _ h => h) hdone)
    rintro (e | _) s₂ es₂ ⟨hdone₂, -⟩
    · exact .inl hdone₂
    · exact hdone₂
  | false =>
    have hputs : f.Avoids (groups.filter (·.directPut)) :=
      hone.filter_of_neg (by rintro _ rfl; exact hd)
    have hrest : OneGroup g f (groups.filter fun g => !g.directPut) :=
      hone.filter_of_pos (by rintro _ rfl; simp [hd])
    have hwait : Waiting g start s.results start := ⟨hfresh, rfl⟩
    refine wp_seq (wp_skip hf waiting_local hputs (holds_frames <| x.executePuts_holds
      (unseen_of_apart hspec hputs) fun _ h => h) hwait) ?_ fun _ _ _ h => h.1.halted
    rintro _ s₁ es₁ ⟨⟨hfresh₁, rfl⟩, -⟩
    refine wp_mono ?_ (executeConditionalWrites_focus hf hspec fuel hrest hfresh₁.cleanOn)
    rintro (e | _) s₂ es₂ h₂
    · exact h₂.imp Settled.done id
    · exact Settled.done h₂

end Wave

/-! ## All waves -/

/-- The parts were concluded one after another, each with its results, from
the history `start` on. -/
inductive Chained (x : WriteExecution) :
    List (WriteGroup × Results) → History → History → Prop where
  | nil (start : History) : Chained x [] start start
  | cons {p r ends start es es' : _} (hp : Concluded x p start es r)
      (hrest : Chained x ends (publication p r :: es) es') : Chained x ((p, r) :: ends) start es'

/-- The results of the concluded parts are still in place. -/
def Kept (r : Results) (ends : List (WriteGroup × Results)) : Prop :=
  ∀ e ∈ ends, Agree e.1 r e.2

theorem WriteExecution.waves_frames {W : Type} {M : World Call Reply W} {gs : List WriteGroup}
    (x : WriteExecution) (hM : Unseen M gs) (hd : M.mayDiverge) (fuel : Nat) :
    ∀ (rounds : Nat) (groups : List WriteGroup), (∀ g ∈ groups, ∀ p ∈ g.parts, p ∈ gs) →
      Frames M gs (x.waves fuel rounds groups) fun _ => True
  | 0, [], _ => .pure trivial
  | _ + 1, [], _ => .pure trivial
  | 0, _ :: _, _ => .diverge hd
  | rounds + 1, g :: groups, hgs => by
    refine (x.executeWriteWave_frames hM hd fuel fun p hp => ?_).seq fun _ =>
      x.waves_frames hM hd fuel rounds _ fun rest hrest p hp => ?_
    · obtain ⟨g', hg', rfl⟩ := mem_map.mp hp
      refine hgs g' hg' _ ?_
      rw [g'.parts_eq]
      exact mem_cons_self
    · obtain ⟨g', hg', hsplit⟩ := mem_filterMap.mp hrest
      refine hgs g' hg' p ?_
      rw [WriteGroup.parts_of_split hsplit]
      exact mem_cons_of_mem _ hp

theorem unseen_blind (gs : List WriteGroup) : Unseen (blind Call Reply) gs :=
  fun _ _ _ => ⟨trivial, fun _ _ _ => rfl⟩

section Waves

variable {x : WriteExecution} {f : Focus} {spec : History → Call → Prop}
variable {g p : WriteGroup} {groups : List WriteGroup} {s : ExecState} {start es : History}

theorem Focus.Apart.part (h : f.Apart g) (hp : p ∈ g.parts) : f.Apart p :=
  ⟨g.parts_address p hp ▸ h.1, fun op hop => h.2 op (WriteGroup.parts_mem hp hop)⟩

theorem Focus.Holds.part (h : f.Holds g) (hp : p ∈ g.parts) : f.Holds p :=
  ⟨(g.parts_address p hp).trans h.address, fun op hop =>
    h.indexes op (WriteGroup.parts_mem hp hop)⟩

theorem WriteGroup.split_mem_parts (g : WriteGroup) : g.split.1 ∈ g.parts := by
  rw [g.parts_eq]
  exact mem_cons_self

theorem oneGroup_wave (hone : OneGroup g f groups) :
    OneGroup g.split.1 f (groups.map fun g => g.split.1) :=
  hone.map (by rintro _ rfl; rfl) fun _ h => h.part (WriteGroup.split_mem_parts _)

theorem Focus.Apart.rest {rest : WriteGroup} (h : f.Apart g) (hs : g.split.2 = some rest) :
    f.Apart rest :=
  ⟨g.split_address.2 rest hs ▸ h.1, fun op hop => h.2 op (WriteGroup.split_mem hs hop)⟩

theorem Focus.Holds.rest {rest : WriteGroup} (h : f.Holds g) (hs : g.split.2 = some rest) :
    f.Holds rest :=
  ⟨(g.split_address.2 rest hs).trans h.address, fun op hop =>
    h.indexes op (WriteGroup.split_mem hs hop)⟩

/-- Work on the groups of a list does not move the results of `g` if its
operations occur in none of them. -/
theorem Framed.agree {gs : List WriteGroup} {s' : ExecState} (h : Framed gs s s')
    (hg : ∀ g' ∈ gs, ∀ op' ∈ g'.operations, ∀ op ∈ g.operations,
      op'.index ≠ op.index) : Agree g s'.results s.results :=
  fun op hop => h.results op.index fun g' hg' op' hop' => hg g' hg' op' hop' op hop

/-- The indexes of the current part and of the rest are disjoint. -/
theorem WriteGroup.Distinct.split {rest : WriteGroup} (h : g.Distinct)
    (hs : g.split.2 = some rest) : rest.Distinct ∧
      ∀ op ∈ g.split.1.operations, ∀ op' ∈ rest.operations, op.index ≠ op'.index := by
  unfold WriteGroup.Distinct at h ⊢
  rw [g.split_operations, hs, map_some, getD_some, map_append] at h
  obtain ⟨-, hrest, hdisj⟩ := nodup_append.mp h
  refine ⟨hrest, fun op hop op' hop' => ?_⟩
  exact hdisj _ (mem_map_of_mem hop) _ (mem_map_of_mem hop')

theorem OneGroup.other_parts {q : WriteGroup} (hone : OneGroup g f groups) (hp : f.Holds p)
    {g' : WriteGroup} (hg' : g' ∈ groups) (hq : q ∈ g'.parts)
    (hown : g' = g → ∀ op' ∈ q.operations, ∀ op ∈ p.operations,
      op'.index ≠ op.index) : ∀ op' ∈ q.operations, ∀ op ∈ p.operations, op'.index ≠ op.index := by
  rcases hone.of_mem hg' with rfl | hapart
  · exact hown rfl
  · intro op' hop' op hop hi
    exact (hapart.part hq).2 op' hop' (hi ▸ hp.indexes op hop)

/-- What the waves make of the focused chain: all parts are concluded, or an
error stopped it after some of them. -/
def Strung {α : Type} (x : WriteExecution) (g : WriteGroup) (start : History)
    (r : Fallible α) (s : ExecState) (es : History) : Prop :=
  ∃ ends rest mid, g.parts = ends.map (·.1) ++ rest ∧ Chained x ends start mid ∧
    Kept s.results ends ∧ Ends (fun _ => rest = [] ∧ es = mid) (fun _ => Unpublished mid es) r

/-- The obligation allows every part of the chain to write as it proposes. -/
def PermitsParts (x : WriteExecution) (g : WriteGroup) (start : History) (f : Focus)
    (spec : History → Call → Prop) : Prop :=
  ∀ ends p rest mid, g.parts = ends.map (·.1) ++ p :: rest → Chained x ends start mid →
    Permits x p mid f spec

theorem PermitsParts.first (h : PermitsParts x g start f spec) : Permits x g.split.1 start f spec :=
  h [] g.split.1 _ start g.parts_eq (.nil start)

theorem PermitsParts.rest {rest : WriteGroup} {r : Results} (h : PermitsParts x g start f spec)
    (hs : g.split.2 = some rest) (hp : Concluded x g.split.1 start es r) :
    PermitsParts x rest (publication g.split.1 r :: es) f spec := by
  intro ends p tail mid hparts hchained
  refine h ((g.split.1, r) :: ends) p tail mid ?_ (.cons hp hchained)
  rw [WriteGroup.parts_of_split hs, hparts]
  rfl

/-- A wave and what it leaves of the results of other operations. -/
theorem executeWriteWave_framed (hf : f.Holds g) (hspec : Permits x g start f spec) (fuel : Nat)
    (hone : OneGroup g f groups) (hfresh : Fresh g s.results) :
    wp (observer f.record spec) (fun r s' es => Ended x g start r s' es ∧ Framed groups s s')
      (x.executeWriteWave fuel groups) s start :=
  wp_mono (fun _ _ _ h => ⟨h.1, h.2.2.1⟩)
    (wp_and_blind (executeWriteWave_focus hf hspec fuel hone hfresh)
      (x.executeWriteWave_frames (unseen_blind groups) trivial fuel (fun _ h => h) s ()))

variable {α : Type} {r : Fallible α}

theorem Strung.cons {rest es' r₁}
    (hs : g.split.2 = some rest) (hp : Concluded x g.split.1 start es r₁)
    (hagree : Agree g.split.1 s.results r₁)
    (h : Strung x rest (publication g.split.1 r₁ :: es) r s es') : Strung x g start r s es' := by
  obtain ⟨ends, tail, mid, hparts, hchained, hkept, hr⟩ := h
  refine ⟨(g.split.1, r₁) :: ends, tail, mid, ?_, .cons hp hchained, ?_, hr⟩
  · rw [WriteGroup.parts_of_split hs, hparts]
    rfl
  · exact forall_mem_cons.mpr ⟨hagree, hkept⟩

/-- The chain is over after a part without a rest. -/
theorem Strung.last (hs : g.split.2 = none) (h : Done x g.split.1 start s.results es) :
    Strung x g start r s es := by
  obtain ⟨es', r', hp, hagree, rfl⟩ := h
  refine ⟨[(g.split.1, r')], [], _, ?_, .cons hp (.nil _), ?_, ?_⟩
  · rw [WriteGroup.parts_of_single hs]
    rfl
  · simpa [Kept] using hagree
  · cases r with
    | ok a => exact ⟨rfl, rfl⟩
    | error e => exact .refl

theorem Halted.strung {e : GoError} (h : Halted x g.split.1 start s.results es) :
    Strung x g start (.error e : Fallible α) s es := by
  rcases h with ⟨es', r', hp, hagree, rfl⟩ | hun
  · refine ⟨[(g.split.1, r')], _, _, g.parts_eq, .cons hp (.nil _), ?_, .refl⟩
    simpa [Kept] using hagree
  · exact ⟨[], g.parts, start, rfl, .nil start, by simp [Kept], hun⟩

/-- The focused chain is strung through all waves. -/
theorem waves_focus (fuel : Nat) :
    ∀ (rounds : Nat) (groups : List WriteGroup) (g : WriteGroup) (start : History)
      (s : ExecState), OneGroup g f groups → f.Holds g → g.Distinct → Fresh g s.results →
      PermitsParts x g start f spec →
        wp (observer f.record spec) (Strung x g start) (x.waves fuel rounds groups) s start
  | _, [], _, _, _, hone, _, _, _, _ => by cases hone
  | 0, _ :: _, _, _, _, _, _, _, _, _ => trivial
  | rounds + 1, g₀ :: gs, g, start, s, hone, hf, hnd, hfresh, hspec => by
    have hp := hf.part g.split_mem_parts
    have hwave := oneGroup_wave hone
    have hfresh₁ : Fresh g.split.1 s.results := fun op hop =>
      hfresh op (WriteGroup.split_mem_first hop)
    unfold WriteExecution.waves
    refine wp_seq (executeWriteWave_framed hp hspec.first fuel hwave hfresh₁) ?_
      fun e s₁ es₁ h => h.1.strung
    rintro _ s₁ es₁ ⟨hdone, hframed⟩
    cases hs : g.split.2 with
    | none =>
      -- nothing of the chain is left: later waves work on other records
      have hrest : f.Avoids ((g₀ :: gs).filterMap fun g => g.split.2) :=
        hone.filterMap_others (by rintro _ rfl; exact hs) fun _ _ h h' => h.rest h'
      have hparts : ∀ p ∈ ((g₀ :: gs).filterMap fun g => g.split.2).flatMap (·.parts),
          f.Apart p := by
        intro p hmem
        obtain ⟨g', hg', hp'⟩ := mem_flatMap.mp hmem
        exact (hrest g' hg').part hp'
      refine wp_mono (fun r s₂ es₂ h => Strung.last hs h.1) (wp_skip hp done_local hparts
        (x.waves_frames (unseen_of_apart hspec.first hparts) trivial fuel rounds _
          fun g' hg' p hp' => mem_flatMap.mpr ⟨g', hg', hp'⟩) hdone)
    | some rest =>
      obtain ⟨hnd', hdisj⟩ := hnd.split hs
      obtain ⟨es', r', hconcluded, hagree, rfl⟩ := hdone
      have hrest : OneGroup rest f ((g₀ :: gs).filterMap fun g => g.split.2) :=
        hone.filterMap (by rintro _ rfl; exact ⟨rest, hs, rfl⟩) fun _ _ h h' => h.rest h'
      have hfresh' : Fresh rest s₁.results := by
        intro op hop
        rw [hframed.results op.index, hfresh op (WriteGroup.split_mem hs hop)]
        intro q hq
        obtain ⟨g', hg', rfl⟩ := mem_map.mp hq
        intro op' hop'
        refine hone.other_parts (hf.rest hs) hg' g'.split_mem_parts ?_ op' hop' op hop
        rintro rfl o ho o' ho'
        exact hdisj o ho o' ho'
      have hstrung := waves_focus fuel rounds _ rest _ s₁ hrest (hf.rest hs) hnd' hfresh'
        (hspec.rest hs hconcluded)
      have hframes := x.waves_frames (unseen_blind _) trivial fuel rounds
        ((g₀ :: gs).filterMap fun g => g.split.2)
        (fun g' hg' p hp' => mem_flatMap.mpr ⟨g', hg', hp'⟩) s₁ ()
      refine wp_mono ?_ (wp_and_blind hstrung hframes)
      rintro r s₂ es₂ ⟨hstrung₂, -, hframed₂, -⟩
      refine hstrung₂.cons hs hconcluded (Agree.trans ?_ hagree)
      -- the waves for the rest of the chain leave this part's results alone
      refine hframed₂.agree fun q hq op' hop' => ?_
      obtain ⟨g', hg', hq'⟩ := mem_flatMap.mp hq
      refine hrest.other_parts hp hg' hq' ?_ op' hop'
      rintro rfl o ho o' ho' hi
      exact hdisj o' ho' o (WriteGroup.parts_mem hq' ho) hi.symm

theorem executeWriteGroups_focus (fuel : Nat) (hone : OneGroup g f groups) (hf : f.Holds g)
    (hnd : g.Distinct) (hfresh : Fresh g s.results) (hspec : PermitsParts x g [] f spec) :
    wp (observer f.record spec) (Strung x g []) (x.executeWriteGroups fuel groups) s [] :=
  waves_focus fuel _ groups g [] s hone hf hnd hfresh hspec

end Waves

end Sink
