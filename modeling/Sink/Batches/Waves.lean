import Mathlib.Data.List.Pairwise
import Sink.Batches.Selection
import Sink.Parse

/-!
# Waves of mutations

`planMutationWaves` of `mutation_batches.go`: the calls of a batch may ask for
different completion modes. Those of one wave run side by side, so calls of
different modes share a wave only if they share no record. The planner looks
only at the last call that touched each record (`last`); that it stands for
all earlier ones is the invariant `Latest`.
-/

namespace Sink

open List

/-- `mutationRequest`: a write or a delete request. -/
class MutationRequest (Request : Type) where
  /-- The URIs of the operations. -/
  uris : Request → List GoString
  completionMode : Request → CompletionMode

instance : MutationRequest WriteRequest where
  uris req := req.operations.map WriteOperation.getUri
  completionMode req := req.completionMode

instance : MutationRequest DeleteRequest where
  uris req := req.operations.map DeleteOperation.getUri
  completionMode req := req.completionMode

structure MutationWave (Request : Type) where
  applied : List (BatchCall Request)
  visible : List (BatchCall Request)

/-- The last wave that touches a record. -/
structure MutationPosition where
  wave : Nat
  mode : CompletionMode
deriving Repr, DecidableEq

namespace MutationWave

variable {Request : Type}

def empty : MutationWave Request := ⟨[], []⟩

def add (wave : MutationWave Request) (mode : CompletionMode) (call : BatchCall Request) :
    MutationWave Request :=
  if mode = .waitUntilVisible then { wave with visible := wave.visible ++ [call] }
  else { wave with applied := wave.applied ++ [call] }

end MutationWave

variable {Request : Type} [MutationRequest Request]

def BatchCall.mode (call : BatchCall Request) : CompletionMode :=
  MutationRequest.completionMode call.request

namespace Codec

variable (codec : Codec)

/-- The records of a call; URIs that are no addresses are passed over. -/
def mutationRecords (call : BatchCall Request) : List Address :=
  (MutationRequest.uris call.request).filterMap fun uri => (codec.parseAddress uri).toOption

end Codec

/-- The first wave in which a call of a mode may touch the record. -/
def requiredWave (mode : CompletionMode) (previous : Option MutationPosition) : Nat :=
  match previous with
  | none => 0
  | some previous => if previous.mode ≠ mode then previous.wave + 1 else previous.wave

/-- The variables of the loop. -/
structure WavePlan (Request : Type) where
  waves : List (MutationWave Request)
  last : Address → Option MutationPosition

namespace Codec

variable (codec : Codec)

def waveOf (last : Address → Option MutationPosition) (call : BatchCall Request) : Nat :=
  (codec.mutationRecords call).foldl
    (fun wave key => max wave (requiredWave call.mode (last key))) 0

/-- One turn of the loop. -/
def place (plan : WavePlan Request) (call : BatchCall Request) : WavePlan Request :=
  let wave := codec.waveOf plan.last call
  let waves := plan.waves ++ replicate (wave + 1 - plan.waves.length) .empty
  { waves := waves.modify wave fun w => w.add call.mode call
    last := fun key =>
      if key ∈ codec.mutationRecords call then some ⟨wave, call.mode⟩ else plan.last key }

def planMutationWaves (calls : List (BatchCall Request)) : List (MutationWave Request) :=
  (calls.foldl codec.place ⟨[], fun _ => none⟩).waves

end Codec

/-! ## What a plan amounts to -/

/-- A wave number for every call. -/
abbrev Placement (Request : Type) := List (BatchCall Request × Nat)

namespace Placement

variable (p : Placement Request)

def calls : List (BatchCall Request) := p.map (·.1)

/-- The calls of wave `k` that do or do not wait for visibility, in order. -/
def listed (k : Nat) (visible : Bool) : List (BatchCall Request) :=
  (p.filter fun q => q.2 == k && (decide (q.1.mode = .waitUntilVisible) == visible)).map (·.1)

def wave (k : Nat) : MutationWave Request :=
  ⟨p.listed k false, p.listed k true⟩

/-- Calls that share a record keep their order, and are in different waves if
their modes differ. -/
def Ordered (codec : Codec) (p : Placement Request) : Prop :=
  p.Pairwise fun earlier later => ∀ key ∈ codec.mutationRecords earlier.1,
    key ∈ codec.mutationRecords later.1 →
      earlier.2 ≤ later.2 ∧ (earlier.1.mode ≠ later.1.mode → earlier.2 < later.2)

variable {p : Placement Request} {call : BatchCall Request} {k n : Nat}

theorem mem_listed {visible : Bool} : call ∈ p.listed k visible ↔
    (call, k) ∈ p ∧ decide (call.mode = .waitUntilVisible) = visible := by
  simp only [listed, mem_map, mem_filter, Bool.and_eq_true, beq_iff_eq, Prod.exists,
    exists_and_right, exists_eq_right]
  constructor
  · rintro ⟨w, hmem, rfl, hmode⟩
    exact ⟨hmem, hmode⟩
  · rintro ⟨hmem, hmode⟩
    exact ⟨k, hmem, rfl, hmode⟩

theorem wave_snoc_self (p : Placement Request) (call : BatchCall Request) (k : Nat) :
    wave (p ++ [(call, k)]) k = (p.wave k).add call.mode call := by
  unfold wave MutationWave.add listed
  by_cases hmode : call.mode = .waitUntilVisible <;> simp [hmode]

theorem wave_snoc_of_ne {w : Nat} (h : w ≠ k) : wave (p ++ [(call, w)]) k = p.wave k := by
  simp [wave, listed, h]

theorem wave_of_unused (h : ∀ q ∈ p, q.2 ≠ k) : p.wave k = .empty := by
  have hnone : ∀ visible, p.listed k visible = [] := by
    intro visible
    rw [eq_nil_iff_forall_not_mem]
    intro call hcall
    exact h _ (mem_listed.mp hcall).1 rfl
  simp [wave, hnone, MutationWave.empty]

end Placement

/-- The plan is that of the placement, `last` stands for all earlier calls, and
every wave is used. -/
structure Placed (codec : Codec) (p : Placement Request) (plan : WavePlan Request) : Prop where
  waves : plan.waves = (range plan.waves.length).map p.wave
  bounded : ∀ q ∈ p, q.2 < plan.waves.length
  used : ∀ k < plan.waves.length, ∃ q ∈ p, q.2 = k
  ordered : p.Ordered codec
  latest : ∀ key position, plan.last key = some position → position.wave < plan.waves.length ∧
    ∀ q ∈ p, key ∈ codec.mutationRecords q.1 →
      q.2 ≤ position.wave ∧ (q.1.mode ≠ position.mode → q.2 < position.wave)
  untouched : ∀ key, plan.last key = none → ∀ q ∈ p, key ∉ codec.mutationRecords q.1

section

variable {codec : Codec} {last : Address → Option MutationPosition} {call : BatchCall Request}

theorem foldl_max_le_iff {α : Type} (f : α → Nat) (l : List α) (start n : Nat) :
    l.foldl (fun m a => max m (f a)) start ≤ n ↔ start ≤ n ∧ ∀ a ∈ l, f a ≤ n := by
  induction l generalizing start with
  | nil => simp
  | cons a l ih =>
    simp only [foldl_cons, ih, mem_cons, forall_eq_or_imp, Nat.max_le, and_assoc]

theorem waveOf_le_iff {n : Nat} : codec.waveOf last call ≤ n ↔
    ∀ key ∈ codec.mutationRecords call, requiredWave call.mode (last key) ≤ n := by
  rw [Codec.waveOf, foldl_max_le_iff]
  simp

theorem requiredWave_le {key : Address} (hkey : key ∈ codec.mutationRecords call) :
    requiredWave call.mode (last key) ≤ codec.waveOf last call :=
  waveOf_le_iff.mp (Nat.le_refl _) key hkey

theorem place_last (plan : WavePlan Request) (key : Address) :
    (codec.place plan call).last key = if key ∈ codec.mutationRecords call then
      some ⟨codec.waveOf plan.last call, call.mode⟩ else plan.last key := rfl

end

namespace Placed

variable {codec : Codec} {p : Placement Request} {plan : WavePlan Request}
  {call : BatchCall Request}

theorem start : Placed codec ([] : Placement Request) ⟨[], fun _ => none⟩ where
  waves := rfl
  bounded := by simp
  used := by simp
  ordered := Pairwise.nil
  latest := by simp
  untouched := by simp

section

variable (h : Placed codec p plan)

include h

/-- A call goes into a wave that exists or opens the next one. -/
theorem waveOf_le (call : BatchCall Request) : codec.waveOf plan.last call ≤ plan.waves.length := by
  refine waveOf_le_iff.mpr fun key _ => ?_
  unfold requiredWave
  split
  · exact Nat.zero_le _
  rename_i position hlast
  have hlt := (h.latest key position hlast).1
  split <;> omega

omit h in
theorem place_length (call : BatchCall Request) :
    (codec.place plan call).waves.length =
      max plan.waves.length (codec.waveOf plan.last call + 1) := by
  simp only [Codec.place, length_modify, length_append, length_replicate]
  omega

theorem place_waves (call : BatchCall Request) :
    (codec.place plan call).waves = (range (codec.place plan call).waves.length).map
      (Placement.wave (p ++ [(call, codec.waveOf plan.last call)])) := by
  have hwaves := h.waves
  apply ext_getElem?
  intro k
  rw [getElem?_map, place_length call]
  by_cases hk : k < max plan.waves.length (codec.waveOf plan.last call + 1)
  · -- a wave that does not exist yet is empty
    have hold : (plan.waves ++ replicate
        (codec.waveOf plan.last call + 1 - plan.waves.length) .empty)[k]? = some (p.wave k) := by
      by_cases hlt : k < plan.waves.length
      · rw [getElem?_append_left hlt, hwaves]
        simp [hlt]
      rw [getElem?_append_right (by omega), getElem?_replicate, if_pos (by omega),
        Placement.wave_of_unused]
      intro q hq
      have := h.bounded q hq
      omega
    simp only [Codec.place, getElem?_modify, hold, getElem?_range hk, Option.map_some]
    by_cases hw : codec.waveOf plan.last call = k
    · subst hw
      simp only [if_true, Placement.wave_snoc_self]
      rfl
    · simp only [if_neg hw, Placement.wave_snoc_of_ne hw]
      rfl
  · rw [getElem?_eq_none (by rw [place_length call]; omega),
      getElem?_eq_none (by rw [length_range]; omega)]
    rfl

/-- An earlier call that shares a record is in an earlier wave, or in the same
one if the modes agree. -/
theorem before {q : BatchCall Request × Nat} (hq : q ∈ p) {key : Address}
    (hkey : key ∈ codec.mutationRecords q.1) (hshared : key ∈ codec.mutationRecords call) :
    q.2 ≤ codec.waveOf plan.last call ∧
      (q.1.mode ≠ call.mode → q.2 < codec.waveOf plan.last call) := by
  have hrequired : requiredWave call.mode (plan.last key) ≤ codec.waveOf plan.last call :=
    requiredWave_le hshared
  cases hlast : plan.last key with
  | none => exact absurd hkey (h.untouched key hlast q hq)
  | some position =>
    obtain ⟨-, hearlier⟩ := h.latest key position hlast
    obtain ⟨hle, hlt⟩ := hearlier q hq hkey
    simp only [requiredWave, hlast] at hrequired
    by_cases hmode : position.mode = call.mode
    · rw [if_neg (by simpa using hmode)] at hrequired
      refine ⟨by omega, fun hne => ?_⟩
      have := hlt (hmode ▸ hne)
      omega
    · rw [if_pos hmode] at hrequired
      exact ⟨by omega, fun _ => by omega⟩

theorem place (call : BatchCall Request) :
    Placed codec (p ++ [(call, codec.waveOf plan.last call)]) (codec.place plan call) := by
  have hlength : (codec.place plan call).waves.length = _ := place_length call
  have hle := h.waveOf_le call
  refine ⟨h.place_waves call, ?_, ?_, ?_, ?_, ?_⟩
  · intro q hq
    rcases mem_append.mp hq with hq | hq
    · have := h.bounded q hq
      omega
    · rw [mem_singleton.mp hq]
      omega
  · intro k hk
    by_cases hlt : k < plan.waves.length
    · obtain ⟨q, hq, hwave⟩ := h.used k hlt
      exact ⟨q, mem_append_left _ hq, hwave⟩
    · refine ⟨_, mem_append_right _ mem_cons_self, ?_⟩
      omega
  · refine pairwise_append.mpr ⟨h.ordered, pairwise_singleton _ _, ?_⟩
    intro earlier hearlier later hlater key hkey hshared
    obtain rfl := mem_singleton.mp hlater
    exact h.before hearlier hkey hshared
  · intro key position hlast
    rw [place_last] at hlast
    split at hlast
    · rename_i hkey
      cases hlast
      refine ⟨by rw [hlength]; simp only; omega, fun q hq hq' => ?_⟩
      rcases mem_append.mp hq with hq | hq
      · exact h.before hq hq' hkey
      · obtain rfl := mem_singleton.mp hq
        exact ⟨Nat.le_refl _, fun hne => absurd rfl hne⟩
    · rename_i hkey
      obtain ⟨hlt, hearlier⟩ := h.latest key position hlast
      refine ⟨by omega, fun q hq hq' => ?_⟩
      rcases mem_append.mp hq with hq | hq
      · exact hearlier q hq hq'
      · obtain rfl := mem_singleton.mp hq
        exact absurd hq' hkey
  · intro key hlast q hq hkey
    rw [place_last] at hlast
    split at hlast
    · cases hlast
    rename_i hother
    rcases mem_append.mp hq with hq | hq
    · exact h.untouched key hlast q hq hkey
    · obtain rfl := mem_singleton.mp hq
      exact hother hkey

theorem foldl (calls : List (BatchCall Request)) :
    ∃ rest : Placement Request, rest.calls = calls ∧
      Placed codec (p ++ rest) (calls.foldl codec.place plan) := by
  induction calls generalizing p plan with
  | nil => exact ⟨[], rfl, by rw [append_nil]; exact h⟩
  | cons call calls ih =>
    obtain ⟨rest, hrest, hplaced⟩ := ih (h.place call)
    refine ⟨(call, codec.waveOf plan.last call) :: rest, congrArg (call :: ·) hrest, ?_⟩
    rw [append_assoc] at hplaced
    exact hplaced

end

end Placed

/-- The calls are in different waves, have one mode or share no record. -/
def Compatible (codec : Codec) (q q' : BatchCall Request × Nat) : Prop :=
  q.2 = q'.2 → q.1.mode ≠ q'.1.mode →
    ∀ key ∈ codec.mutationRecords q.1, key ∉ codec.mutationRecords q'.1

instance (codec : Codec) :
    Std.Symm (Compatible codec : BatchCall Request × Nat → BatchCall Request × Nat → Prop) where
  symm _ _ h hwave hmode key hkey hkey' := h hwave.symm hmode.symm key hkey' hkey

theorem Placement.Ordered.compatible {codec : Codec} {p : Placement Request}
    (h : p.Ordered codec) : ∀ ⦃q⦄, q ∈ p → ∀ ⦃q'⦄, q' ∈ p → Compatible codec q q' := by
  refine Pairwise.forall_of_forall (fun q _ _ hmode => absurd rfl hmode) (h.imp ?_)
  intro q q' hordered hwave hmode key hkey hshared
  obtain ⟨-, hlt⟩ := hordered key hkey hshared
  have := hlt hmode
  omega

/-- Every call has one wave and is listed there by its mode, in order. Calls
that share a record keep their order, in different waves if their modes differ,
so that calls of different modes in one wave share no record; and no wave is
empty. -/
theorem planMutationWaves_ordered (codec : Codec) (calls : List (BatchCall Request)) :
    let waves := codec.planMutationWaves calls
    ∃ p : Placement Request, p.calls = calls ∧ (∀ q ∈ p, q.2 < waves.length) ∧
      waves = (range waves.length).map p.wave ∧ p.Ordered codec ∧
      (∀ wave ∈ waves, ∀ a ∈ wave.applied ++ wave.visible, ∀ c ∈ wave.applied ++ wave.visible,
        a.mode ≠ c.mode → ∀ key ∈ codec.mutationRecords a, key ∉ codec.mutationRecords c) ∧
      ∀ wave ∈ waves, wave.applied ≠ [] ∨ wave.visible ≠ [] := by
  intro waves
  have hstart : Placed codec ([] : Placement Request) _ := Placed.start
  obtain ⟨p, hcalls, hplaced⟩ := hstart.foldl calls
  have hwaves : waves = (range waves.length).map p.wave := hplaced.waves
  have hwave : ∀ wave ∈ waves, ∃ k < waves.length, wave = p.wave k := by
    intro wave hmem
    rw [hwaves] at hmem
    obtain ⟨k, hk, rfl⟩ := mem_map.mp hmem
    exact ⟨k, mem_range.mp hk, rfl⟩
  have hlisted : ∀ k, ∀ a ∈ (p.wave k).applied ++ (p.wave k).visible, (a, k) ∈ p := by
    intro k a ha
    rcases mem_append.mp ha with ha | ha
    · exact (Placement.mem_listed.mp ha).1
    · exact (Placement.mem_listed.mp ha).1
  refine ⟨p, hcalls, hplaced.bounded, hwaves, hplaced.ordered, ?_, ?_⟩
  · intro wave hmem a ha c hc hmode
    obtain ⟨k, -, rfl⟩ := hwave wave hmem
    exact hplaced.ordered.compatible (hlisted k a ha) (hlisted k c hc) rfl hmode
  · intro wave hmem
    obtain ⟨k, hk, rfl⟩ := hwave wave hmem
    obtain ⟨⟨call, w⟩, hq, rfl⟩ := hplaced.used k hk
    cases hmode : decide (call.mode = .waitUntilVisible) with
    | true => exact .inr (ne_nil_of_mem (Placement.mem_listed.mpr ⟨hq, hmode⟩))
    | false => exact .inl (ne_nil_of_mem (Placement.mem_listed.mpr ⟨hq, hmode⟩))

/-! ## No other plan has fewer waves -/

/-- The plan is nowhere behind another placement of its calls. -/
structure Ahead (codec : Codec) (p : Placement Request) (plan : WavePlan Request) : Prop where
  length : ∀ n, (∀ q ∈ p, q.2 < n) → plan.waves.length ≤ n
  last : ∀ key position, plan.last key = some position → ∃ q ∈ p,
    key ∈ codec.mutationRecords q.1 ∧ q.1.mode = position.mode ∧ position.wave ≤ q.2

namespace Ahead

variable {codec : Codec} {p : Placement Request} {plan : WavePlan Request}
  {call : BatchCall Request} {w : Nat} (h : Ahead codec p plan)

include h

theorem waveOf_le (hp : Placement.Ordered codec (p ++ [(call, w)])) :
    codec.waveOf plan.last call ≤ w := by
  refine waveOf_le_iff.mpr fun key hkey => ?_
  cases hlast : plan.last key with
  | none => exact Nat.zero_le _
  | some position =>
    -- the call that `last` stands for is before this one there, too
    obtain ⟨q, hq, hq', hmode, hle⟩ := h.last key position hlast
    obtain ⟨-, -, hbefore⟩ := pairwise_append.mp hp
    obtain ⟨hsame, hother⟩ := hbefore q hq _ mem_cons_self key hq' hkey
    simp only [requiredWave]
    split
    · rename_i hne
      have := hother (hmode ▸ hne)
      omega
    · omega

theorem place (hp : Placement.Ordered codec (p ++ [(call, w)])) :
    Ahead codec (p ++ [(call, w)]) (codec.place plan call) := by
  have hle := h.waveOf_le hp
  refine ⟨fun n hn => ?_, fun key position hlast => ?_⟩
  · have hw := hn _ (mem_append_right _ mem_cons_self)
    have hlength := h.length n (forall_mem_append.mp hn).1
    rw [Placed.place_length]
    omega
  · rw [place_last] at hlast
    split at hlast
    · rename_i hkey
      cases hlast
      exact ⟨_, mem_append_right _ mem_cons_self, hkey, rfl, hle⟩
    · obtain ⟨q, hq, hlast⟩ := h.last key position hlast
      exact ⟨q, mem_append_left _ hq, hlast⟩

theorem foldl {rest : Placement Request} (hp : Placement.Ordered codec (p ++ rest)) :
    Ahead codec (p ++ rest) (rest.calls.foldl codec.place plan) := by
  induction rest generalizing p plan with
  | nil => rwa [append_nil]
  | cons q rest ih =>
    rw [append_cons] at hp ⊢
    exact ih (h.place (pairwise_append.mp hp).1) hp

end Ahead

/-- No placement that keeps the calls ordered has fewer waves. -/
theorem planMutationWaves_fewest (codec : Codec) (calls : List (BatchCall Request)) :
    IsLeast {n | ∃ p : Placement Request, p.calls = calls ∧ p.Ordered codec ∧ ∀ q ∈ p, q.2 < n}
      (codec.planMutationWaves calls).length := by
  constructor
  · have hstart : Placed codec ([] : Placement Request) _ := Placed.start
    obtain ⟨p, hcalls, hplaced⟩ := hstart.foldl calls
    exact ⟨p, hcalls, hplaced.ordered, hplaced.bounded⟩
  · rintro n ⟨p, rfl, hp, hn⟩
    have hstart : Ahead codec ([] : Placement Request) ⟨[], fun _ => none⟩ :=
      ⟨fun _ _ => Nat.zero_le _, by simp⟩
    exact (hstart.foldl hp).length n hn

end Sink
